/-!
# Commands

What the program can be asked to do: print an expression in one of three formats,
check it against the configuration, turn it into a query on a table, or list the
fields of the configuration.
-/

namespace Sift

inductive TreeFormat where
  | json
  | tree
  | expr
deriving DecidableEq

def TreeFormat.ofName? : String → Option TreeFormat
  | "json" => some json
  | "tree" => some tree
  | "expr" => some expr
  | _ => none

inductive Command where
  | parse (expression : String) (format : TreeFormat) (strict : Bool)
  | check (expression : String)
  | sql (expression table : String) (plain : Bool)
  | fields
deriving DecidableEq

inductive Request where
  | run (config : Option String) (command : Command)
  | help
  | version
  | misuse
deriving DecidableEq

def Request.configFile? : Request → Option String
  | .run file _ => file
  | _ => none

end Sift

import Sift.CommandLine
import Sift.Config.Source
import Sift.Expr.Printer
import Sift.Query.Printer

/-!
# What a command prints

A command that succeeds prints its result and nothing else. Otherwise the reason
goes to the second stream, and nothing to the first.
-/

namespace Sift

structure Outcome where
  exitCode : Nat
  output : String
  errors : String
deriving DecidableEq

namespace Field

def detail (label : String) (text : String) : String := "  " ++ label ++ text ++ "\n"

def listing (f : Field) : String :=
  let list (label separator : String) (l : Option (List String)) : String :=
    match l with
    | none => ""
    | some texts => detail label (separator.intercalate texts)
  f.name ++ "\n" ++
    (if f.columnName = f.name then "" else detail "column:    " f.columnName) ++
    list "operators: " " " f.operators ++
    list "excluded:  " " " f.excludedOperators ++
    list "types:     " "|" (f.types.map (·.map ValueType.name)) ++
    list "values:    " ", " (f.values.map (·.map Literal.display)) ++
    match f.join with
    | none => ""
    | some (.table j) => detail "join:      " j.table
    | some (.custom _) => detail "join:      " "(custom)"

end Field

namespace Query

def toJson (q : Query) : Json :=
  .object [("bindings", .array (q.bindings.map Literal.toJson)), ("sql", .string q.sql)]

def listing (q : Query) : String :=
  q.sql ++ "\n" ++ String.join ((q.bindings.zipIdx 1).map fun (value, i) =>
    "  " ++ toString i ++ ": " ++ value.toJson.text ++ "\n")

end Query

namespace Command

def printed (format : TreeFormat) (e : Expr) : String :=
  match format with
  | .json => e.toJson.prettyText ++ "\n"
  | .tree => String.ofList (e.outline 0)
  | .expr => e.text ++ "\n"

def countText (n : Nat) : String :=
  "ok: " ++ toString n ++ " comparison" ++ (if n = 1 then "" else "s") ++ "\n"

def run (c : Config) (now : Time.Instant) : Command → Except Error String
  | .parse expression format strict =>
    match Expr.parse { c.options with strict := c.strict || strict } expression with
    | .error e => .error (.parse e)
    | .ok e => .ok (printed format e)
  | .check expression => do
    let filter ← c.filter now expression
    return countText (← filter.check)
  | .sql expression table plain => do
    let filter ← c.filter now expression
    let q ← filter.apply (.ofTable table)
    return if plain then q.listing else q.toJson.prettyText ++ "\n"
  | .fields => do
    let registry ← c.fieldRegistry
    return if registry.toList.isEmpty then "No fields configured\n"
      else String.join (registry.toList.map Field.listing)

end Command

namespace Request

def usage : String :=
  "\n".intercalate
    ["Usage: fq [-c FILE] [-v] COMMAND",
      "",
      "Commands:",
      "  parse EXPRESSION [-f json|tree|expr] [-s]  print the tree of an expression (alias: p)",
      "  check EXPRESSION                           resolve every comparison",
      "  sql EXPRESSION -t TABLE [--text]           compile to a SELECT statement",
      "  fields                                     list the configured fields",
      ""]

/-- What to print. The configuration counts only for a command. -/
def outcome (config : Except Error Config) (now : Time.Instant) : Request → Outcome
  | .help => ⟨0, usage, ""⟩
  | .version => ⟨0, "fq 0.1.0\n", ""⟩
  | .misuse => ⟨2, "", usage⟩
  | .run _ command =>
    match config >>= (command.run · now) with
    | .ok output => ⟨0, output, ""⟩
    | .error e => ⟨1, "", "Error: " ++ e.message ++ "\n"⟩

end Request

end Sift

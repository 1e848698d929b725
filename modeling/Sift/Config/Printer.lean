import Sift.Config

/-!
# Writing configurations

What is absent is not written, and neither is a list or a table of the whole
configuration that is empty. An empty list of a field is written, since it differs
from an absent one.
-/

namespace Sift

open Toml (Value)

def entryOf {α : Type} (key : String) (write : α → Value) : Option α → List (String × Value)
  | none => []
  | some a => [(key, write a)]

def stringsToml (strings : List String) : Value := .array (strings.map .string)

def Join.toToml (j : Join) : Value :=
  .table
    [("table", .string j.table), ("first", .string j.first), ("operator", .string j.operator),
      ("second", .string j.second), ("kind", .string j.kind.name)]

def FieldConfig.toToml (c : FieldConfig) : Value :=
  .table (("name", .string c.name) ::
    entryOf "column" .string c.column ++
    entryOf "operators" stringsToml c.operators ++
    entryOf "exclude_operators" stringsToml c.excludedOperators ++
    entryOf "values" (fun values => .array (values.map Value.arranged)) c.values ++
    entryOf "types" stringsToml c.types ++
    entryOf "join" Join.toToml c.join)

namespace Config

def toToml (c : Config) : List (String × Value) :=
  [("strict", .boolean c.strict), ("max_depth", .integer (Int64.ofNat c.maxDepth))] ++
    (if c.removedOperators.isEmpty then []
      else [("remove_operators", stringsToml c.removedOperators)]) ++
    (if c.operators.isEmpty then []
      else [("operators", .table (c.operators.map fun (symbol, sql) => (symbol, .string sql)))]) ++
    (if c.fields.isEmpty then [] else [("fields", .array (c.fields.map (·.toToml)))])

def text (c : Config) : String := String.ofList (Toml.document c.toToml)

end Config

end Sift

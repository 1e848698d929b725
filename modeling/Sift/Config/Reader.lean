import Sift.Config
import Sift.Toml.Reader

/-!
# Reading configurations

Names that mean nothing are passed over, but what has a meaning must have the
right form. A field and a join may also be written as an array with their parts in
order, and parts that are left off at the end are missing.
-/

namespace Sift

namespace Toml.Value

def string? : Value → Option String
  | .string s => some s
  | _ => none

def boolean? : Value → Option Bool
  | .boolean b => some b
  | _ => none

def natural? : Value → Option Nat
  | .integer i => if 0 ≤ i.toInt then some i.toInt.toNat else none
  | _ => none

def array? : Value → Option (List Value)
  | .array elements => some elements
  | _ => none

def strings? (v : Value) : Option (List String) := v.array?.bind (·.mapM string?)

def record? (names : List String) : Value → Option (List (String × Value))
  | .table entries => some entries
  | .array elements => some (names.zip elements)
  | _ => none

end Toml.Value

namespace Config

open Toml

abbrev Parts := List (String × Value)

def required {α : Type} (parts : Parts) (name : String) (read : Value → Option α) : Option α :=
  (parts.lookup name).bind read

/-- A part that may be missing, but not be wrong. -/
def withDefault {α : Type} (parts : Parts) (name : String) (default : α)
    (read : Value → Option α) : Option α :=
  match parts.lookup name with
  | none => some default
  | some v => read v

def optional {α : Type} (parts : Parts) (name : String) (read : Value → Option α) :
    Option (Option α) :=
  withDefault parts name none fun v => (read v).map some

/-- The name of a kind alone, or as the only key of a table with nothing in it. -/
def joinKind? : Value → Option JoinKind
  | .string name => JoinKind.ofName? name
  | .table [(name, .array [])] => JoinKind.ofName? name
  | .table [(name, .table [])] => JoinKind.ofName? name
  | _ => none

def join? (v : Value) : Option Join := do
  let parts ← v.record? ["table", "first", "operator", "second", "kind"]
  let table ← required parts "table" Value.string?
  let first ← required parts "first" Value.string?
  let operator ← withDefault parts "operator" "=" Value.string?
  let second ← required parts "second" Value.string?
  let kind ← withDefault parts "kind" .inner joinKind?
  return ⟨table, first, operator, second, kind⟩

def field? (v : Value) : Option FieldConfig := do
  let parts ← v.record?
    ["name", "column", "operators", "exclude_operators", "values", "types", "join"]
  let name ← required parts "name" Value.string?
  let column ← optional parts "column" Value.string?
  let operators ← optional parts "operators" Value.strings?
  let excludedOperators ← optional parts "exclude_operators" Value.strings?
  let values ← optional parts "values" Value.array?
  let types ← optional parts "types" Value.strings?
  let join ← optional parts "join" join?
  return ⟨name, column, operators, excludedOperators, values, types, join⟩

/-- Symbols with their SQL. A date or time counts as a table with one entry. -/
def operators? : Value → Option (List (String × String))
  | .table entries => entries.mapM fun (symbol, sql) => sql.string?.map (symbol, ·)
  | .dateTime d => some [("$__toml_private_datetime", String.ofList d.text)]
  | _ => none

def ofTable? (parts : Parts) : Option Config := do
  let strict ← withDefault parts "strict" ParseOptions.default.strict Value.boolean?
  let maxDepth ← withDefault parts "max_depth" ParseOptions.default.maxDepth Value.natural?
  let removedOperators ← withDefault parts "remove_operators" [] Value.strings?
  let operators ← withDefault parts "operators" [] operators?
  let fields ← withDefault parts "fields" [] fun v => v.array?.bind (·.mapM field?)
  if h : operators.Pairwise fun a b => a.1 < b.1 then
    return ⟨strict, maxDepth, removedOperators, operators, fields, h⟩
  else none

def read (text : String) : Except Error Config :=
  match Toml.read text with
  | some (.table parts) =>
    match ofTable? parts with
    | some c => if c.maxDepth = 0 then .error (.maxDepthTooSmall c.maxDepth) else .ok c
    | none => .error .malformedConfig
  | _ => .error .malformedConfig

end Config

end Sift

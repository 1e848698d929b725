import Sift.Filter
import Sift.Toml.Printer

/-!
# Configurations

A configuration lists the fields that expressions may use, changes the default
operators and sets how expressions are parsed. Operators are kept in the order of
their symbols, and fields in the order of the file.
-/

namespace Sift

structure FieldConfig where
  name : String
  column : Option String
  operators : Option (List String)
  excludedOperators : Option (List String)
  values : Option (List Toml.Value)
  types : Option (List String)
  join : Option Join
deriving DecidableEq

structure Config where
  strict : Bool
  maxDepth : Nat
  removedOperators : List String
  operators : List (String × String)
  fields : List FieldConfig
  operators_ordered : operators.Pairwise fun a b => a.1 < b.1
deriving DecidableEq

namespace FieldConfig

/-- The literal for one of the allowed values. A date or time is a text. -/
def literal (field : String) : Toml.Value → Except Error Literal
  | .string s => .ok (.string s)
  | .integer i => .ok (.int i)
  | .float x => .ok (.float x)
  | .boolean b => .ok (.bool b)
  | .dateTime d => .ok (.string (String.ofList d.text))
  | v => .error (.unsupportedValue field v.inlineText)

def typesOfUnions (unions : List String) : Except Error (List ValueType) :=
  ((unions.mapM ValueType.union).map List.flatten).mapError .registry

def traverse {α β : Type} (f : α → Except Error β) : Option α → Except Error (Option β)
  | none => .ok none
  | some a => (f a).map some

/-- The field that an entry describes. The name is checked first, then the values,
then the types. -/
def toField (c : FieldConfig) : Except Error Field :=
  match Field.named c.name with
  | .error e => .error (.registry e)
  | .ok field => do
    let values ← traverse (·.mapM (literal c.name)) c.values
    let types ← traverse typesOfUnions c.types
    return { field with
      column := c.column
      operators := c.operators
      excludedOperators := c.excludedOperators
      values
      types
      join := c.join.map .table }

end FieldConfig

namespace Config

def empty : Config :=
  ⟨ParseOptions.default.strict, ParseOptions.default.maxDepth, [], [], [], .nil⟩

def options (c : Config) : ParseOptions := ⟨c.strict, c.maxDepth⟩

def holdsNaN (c : Config) : Bool := c.fields.any fun f => Toml.Value.anyNaN (f.values.getD [])

/-- The last entry of a name counts; the first entry that describes no field is the
error. -/
def fieldRegistry (c : Config) : Except Error FieldRegistry :=
  c.fields.foldlM (fun r f => f.toField.map r.insert) .empty

/-- The default operators without the removed ones, then the operators of the
configuration. -/
def operatorRegistry (c : Config) : OperatorRegistry :=
  let kept := c.removedOperators.foldl OperatorRegistry.erase .default
  c.operators.foldl (fun r (symbol, sql) => r.insert symbol (.fixed sql)) kept

def filter (c : Config) (now : Time.Instant) (expression : String) : Except Error Filter :=
  c.fieldRegistry.map fun fields => ⟨expression, fields, c.operatorRegistry, c.options, now⟩

end Config

end Sift

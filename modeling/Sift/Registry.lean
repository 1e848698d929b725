import Std.Data.TreeMap
import Sift.Constraint
import Sift.Query

/-!
# Fields and operators that expressions may use

Only registered fields and operators may appear in an expression. A field may
narrow the operators and the values it takes, have a column of its own and bring
a join into the query. Both registries are ordered by name, which is the order of
code points, and a later entry replaces an earlier one of the same name.
-/

namespace Sift

open Sift.Text

inductive RegistryError where
  | unknownField (name : String)
  | unknownOperator (symbol : String)
  | operatorNotPermitted (symbol field : String)
  | invalidFieldName (name : String)
  | unknownValueType (name : String)
deriving DecidableEq

def RegistryError.message : RegistryError → String
  | .unknownField name => "Key '" ++ name ++ "' is not supported for filtering"
  | .unknownOperator symbol => "Operator '" ++ symbol ++ "' not supported for filtering"
  | .operatorNotPermitted symbol field =>
    "Operator '" ++ symbol ++ "' is not allowed for filtering (with " ++ field ++ ")"
  | .invalidFieldName name => "Invalid key name: " ++ name
  | .unknownValueType name => "Key type " ++ name ++ " is not supported"

namespace ValueType

def ofText (s : List Char) : Except RegistryError ValueType :=
  match ofName? (String.ofList s) with
  | some type => .ok type
  | none => .error (.unknownValueType (String.ofList s))

/-- The types of a union such as `date|null`, in order; the first name that is
not a type is the error. -/
def union (spec : String) : Except RegistryError (List ValueType) :=
  (splitAt '|' spec.toList).mapM fun part => ofText (trim part)

end ValueType

/-- The symbols of a list that is written with commas; empty places are skipped. -/
def symbolsOfText (spec : String) : List String :=
  (((splitAt ',' spec.toList).map trim).filter (· ≠ [])).map String.ofList

inductive FieldJoin where
  | table (join : Join)
  | custom (hook : Query → Query)

namespace FieldJoin

def apply (j : FieldJoin) (q : Query) : Query :=
  match j with
  | .table join => q.join join
  | .custom hook => hook q

end FieldJoin

/-- Names are runs of the characters that an expression allows in a field. -/
def isFieldName (s : String) : Bool := s ≠ "" && s.toList.all isFieldChar

structure Field where
  name : String
  column : Option String
  operators : Option (List String)
  excludedOperators : Option (List String)
  values : Option (List Literal)
  types : Option (List ValueType)
  join : Option FieldJoin
  name_valid : isFieldName name = true

namespace Field

def named (name : String) : Except RegistryError Field :=
  if h : isFieldName name = true then .ok ⟨name, none, none, none, none, none, none, h⟩
  else .error (.invalidFieldName name)

def columnName (f : Field) : String := f.column.getD f.name

def constraint (f : Field) : Constraint := ⟨f.values, f.types⟩

def withColumn (f : Field) (column : String) : Field := { f with column := some column }

def withOperators (f : Field) (symbols : List String) : Field :=
  { f with operators := some symbols }

def withoutOperators (f : Field) (symbols : List String) : Field :=
  { f with excludedOperators := some symbols }

def withValues (f : Field) (values : List Literal) : Field := { f with values := some values }

def withTypes (f : Field) (types : List ValueType) : Field := { f with types := some types }

/-- A union that names an unknown type changes nothing. -/
def withUnion (f : Field) (spec : String) : Except RegistryError Field :=
  (ValueType.union spec).map f.withTypes

def withJoin (f : Field) (join : FieldJoin) : Field := { f with join := some join }

/-- An operator has to be in the list of operators, if there is one, and not in
the list of excluded ones. -/
def permits (f : Field) (symbol : String) : Bool :=
  (match f.operators with
    | none => true
    | some symbols => symbols.contains symbol) &&
  !(f.excludedOperators.getD []).contains symbol

end Field

/-- Fields by name; each is stored under its own name. -/
structure FieldRegistry where
  fields : Std.TreeMap String Field
  named : ∀ name (f : Field), fields[name]? = some f → f.name = name

namespace FieldRegistry

def empty : FieldRegistry := ⟨∅, by simp⟩

def get? (r : FieldRegistry) (name : String) : Option Field := r.fields[name]?

def insert (r : FieldRegistry) (f : Field) : FieldRegistry :=
  ⟨r.fields.insert f.name f, by
    intro name g h
    rw [Std.TreeMap.getElem?_insert] at h
    split at h
    · next heq => exact Option.some.inj h ▸ Std.LawfulEqCmp.eq_of_compare heq
    · exact r.named name g h⟩

def add (r : FieldRegistry) (name : String) : Except RegistryError FieldRegistry :=
  (Field.named name).map r.insert

def erase (r : FieldRegistry) (name : String) : FieldRegistry :=
  ⟨r.fields.erase name, by
    intro other f h
    rw [Std.TreeMap.getElem?_erase] at h
    split at h
    · simp at h
    · exact r.named other f h⟩

def toList (r : FieldRegistry) : List Field := r.fields.toList.map (·.2)

def size (r : FieldRegistry) : Nat := r.fields.size

end FieldRegistry

/-- What an operator puts into a query: a comparison with an operator of SQL, or
whatever a caller's own handler does with the group, the connector and the value. -/
inductive Operator where
  | fixed (sql : String)
  | custom (handler : WhereGroup → Connector → Literal → WhereGroup)

structure OperatorRegistry where
  operators : Std.TreeMap String Operator

namespace OperatorRegistry

def empty : OperatorRegistry := ⟨∅⟩

def get? (r : OperatorRegistry) (symbol : String) : Option Operator := r.operators[symbol]?

def insert (r : OperatorRegistry) (symbol : String) (o : Operator) : OperatorRegistry :=
  ⟨r.operators.insert symbol o⟩

def erase (r : OperatorRegistry) (symbol : String) : OperatorRegistry :=
  ⟨r.operators.erase symbol⟩

def toList (r : OperatorRegistry) : List (String × Operator) := r.operators.toList

def defaultSymbols : List String := ["=", "!=", "<", ">", "<=", ">="]

def default : OperatorRegistry :=
  defaultSymbols.foldl (fun r symbol => r.insert symbol (.fixed symbol)) empty

end OperatorRegistry

end Sift

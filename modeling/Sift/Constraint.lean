import Sift.Literal
import Sift.Time.Reader

/-!
# What values a field accepts

A field may list the values it allows, the types it accepts, both or neither. The
types are tried in the order in which they are listed, and the first that accepts
a literal decides what becomes of it: a date type turns texts and whole numbers
into dates, every other type leaves the literal as it is.
-/

namespace Sift

open Sift.Text

inductive ValueType where
  | int
  | float
  | string
  | bool
  | null
  | numeric
  | date
deriving DecidableEq

def isNumericText (s : String) : Bool := (Decimal.ofText? (trim s.toList)).isSome

namespace ValueType

def all : List ValueType := [int, float, string, bool, null, numeric, date]

def name : ValueType → String
  | .int => "int"
  | .float => "float"
  | .string => "string"
  | .bool => "bool"
  | .null => "null"
  | .numeric => "numeric"
  | .date => "date"

def ofName? (s : String) : Option ValueType := all.find? (·.name = s)

/-- The literal as the type takes it, or nothing if the type does not accept it. -/
def accept? (now : Time.Instant) (type : ValueType) (l : Literal) : Option Literal :=
  match type, l with
  | .int, .int _ => some l
  | .float, .float _ => some l
  | .string, .string _ => some l
  | .bool, .bool _ => some l
  | .null, .null => some l
  | .numeric, .int _ => some l
  | .numeric, .float _ => some l
  | .numeric, .string s => if isNumericText s then some l else none
  | .date, .string s => (Time.read? now s).map .date
  | .date, .int i => (Time.Instant.ofUnixSeconds? i.toInt).map .date
  | .date, .date _ => some l
  | _, _ => none

end ValueType

inductive ValidationError where
  | valueNotAllowed (field allowed given : String)
  | typeMismatch (field expected : String)
deriving DecidableEq

def ValidationError.message : ValidationError → String
  | .valueNotAllowed field allowed given =>
    "The key " ++ field ++ " only supports the following values for filtering: " ++ allowed ++
      ". '" ++ given ++ "' given"
  | .typeMismatch field expected =>
    "Value for " ++ field ++ " should be one of: " ++ expected

structure Constraint where
  values : Option (List Literal)
  types : Option (List ValueType)
deriving DecidableEq

namespace Constraint

/-- Whether the list of allowed values, if there is one, has the literal. -/
def allows (c : Constraint) (l : Literal) : Bool :=
  match c.values with
  | none => true
  | some values => values.any (·.sameValue l)

/-- What the listed types make of a literal. -/
def coerce? (c : Constraint) (now : Time.Instant) (l : Literal) : Option Literal :=
  match c.types with
  | none => some l
  | some types => types.findSome? (·.accept? now l)

def validate (c : Constraint) (field : String) (now : Time.Instant) (l : Literal) :
    Except ValidationError Literal :=
  if c.allows l then
    match c.coerce? now l with
    | some value => .ok value
    | none =>
      .error (.typeMismatch field ("|".intercalate ((c.types.getD []).map ValueType.name)))
  else
    .error (.valueNotAllowed field
      (", ".intercalate ((c.values.getD []).map Literal.display)) l.display)

end Constraint

end Sift

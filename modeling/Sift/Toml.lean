import Sift.Binary64
import Sift.Text.Decimal

/-!
# TOML values

A table is a list of entries; a table that was read has its keys in the order of
code points. Dates and times keep the parts that were written and are not tied to
the time line.
-/

namespace Sift.Toml

open Sift.Text

structure LocalDate where
  year : Nat
  month : Nat
  day : Nat
deriving DecidableEq

structure LocalTime where
  hour : Nat
  minute : Nat
  second : Nat
  nanos : Nat
deriving DecidableEq

inductive Offset where
  | utc
  | minutes (n : Int)
deriving DecidableEq

inductive DateTime where
  | date (d : LocalDate)
  | time (t : LocalTime)
  | dateTime (d : LocalDate) (t : LocalTime) (offset : Option Offset)
deriving DecidableEq

inductive Value where
  | string (s : String)
  | integer (i : Int64)
  | float (x : Binary64)
  | boolean (b : Bool)
  | dateTime (d : DateTime)
  | array (elements : List Value)
  | table (entries : List (String × Value))

namespace Value

mutual

def decEq : (a b : Value) → Decidable (a = b)
  | .string a, .string b => if h : a = b then .isTrue (by rw [h]) else .isFalse (by simp [h])
  | .integer a, .integer b => if h : a = b then .isTrue (by rw [h]) else .isFalse (by simp [h])
  | .float a, .float b => if h : a = b then .isTrue (by rw [h]) else .isFalse (by simp [h])
  | .boolean a, .boolean b => if h : a = b then .isTrue (by rw [h]) else .isFalse (by simp [h])
  | .dateTime a, .dateTime b =>
    if h : a = b then .isTrue (by rw [h]) else .isFalse (by simp [h])
  | .array as, .array bs =>
    match decEqElements as bs with
    | .isTrue h => .isTrue (by rw [h])
    | .isFalse h => .isFalse (by simp [h])
  | .table as, .table bs =>
    match decEqEntries as bs with
    | .isTrue h => .isTrue (by rw [h])
    | .isFalse h => .isFalse (by simp [h])
  | .string _, .integer _ | .string _, .float _ | .string _, .boolean _ => .isFalse (by simp)
  | .string _, .dateTime _ | .string _, .array _ | .string _, .table _ => .isFalse (by simp)
  | .integer _, .string _ | .integer _, .float _ | .integer _, .boolean _ => .isFalse (by simp)
  | .integer _, .dateTime _ | .integer _, .array _ | .integer _, .table _ => .isFalse (by simp)
  | .float _, .string _ | .float _, .integer _ | .float _, .boolean _ => .isFalse (by simp)
  | .float _, .dateTime _ | .float _, .array _ | .float _, .table _ => .isFalse (by simp)
  | .boolean _, .string _ | .boolean _, .integer _ | .boolean _, .float _ => .isFalse (by simp)
  | .boolean _, .dateTime _ | .boolean _, .array _ | .boolean _, .table _ => .isFalse (by simp)
  | .dateTime _, .string _ | .dateTime _, .integer _ | .dateTime _, .float _ =>
    .isFalse (by simp)
  | .dateTime _, .boolean _ | .dateTime _, .array _ | .dateTime _, .table _ =>
    .isFalse (by simp)
  | .array _, .string _ | .array _, .integer _ | .array _, .float _ => .isFalse (by simp)
  | .array _, .boolean _ | .array _, .dateTime _ | .array _, .table _ => .isFalse (by simp)
  | .table _, .string _ | .table _, .integer _ | .table _, .float _ => .isFalse (by simp)
  | .table _, .boolean _ | .table _, .dateTime _ | .table _, .array _ => .isFalse (by simp)

def decEqElements : (as bs : List Value) → Decidable (as = bs)
  | [], [] => .isTrue rfl
  | a :: as, b :: bs =>
    match decEq a b with
    | .isTrue h =>
      match decEqElements as bs with
      | .isTrue ht => .isTrue (by rw [h, ht])
      | .isFalse ht => .isFalse (by simp [ht])
    | .isFalse h => .isFalse (by simp [h])
  | [], _ :: _ => .isFalse (by simp)
  | _ :: _, [] => .isFalse (by simp)

def decEqEntries : (as bs : List (String × Value)) → Decidable (as = bs)
  | [], [] => .isTrue rfl
  | (k, a) :: as, (l, b) :: bs =>
    if hk : k = l then
      match decEq a b with
      | .isTrue h =>
        match decEqEntries as bs with
        | .isTrue ht => .isTrue (by rw [hk, h, ht])
        | .isFalse ht => .isFalse (by simp [ht])
      | .isFalse h => .isFalse (by simp [h])
    else .isFalse (by simp [hk])
  | [], _ :: _ => .isFalse (by simp)
  | _ :: _, [] => .isFalse (by simp)

end

instance : DecidableEq Value := decEq

def isTable : Value → Bool
  | .table _ => true
  | _ => false

mutual

def holdsNaN : Value → Bool
  | .float x => x.isNaN
  | .array elements => anyNaN elements
  | .table entries => anyNaNEntry entries
  | _ => false

def anyNaN : List Value → Bool
  | [] => false
  | v :: vs => holdsNaN v || anyNaN vs

def anyNaNEntry : List (String × Value) → Bool
  | [] => false
  | (_, v) :: es => holdsNaN v || anyNaNEntry es

end

end Value

/-- Put an entry in its place in a list ordered by key, instead of one with the
same key. -/
def insertEntry {α : Type} (key : String) (value : α) :
    List (String × α) → List (String × α)
  | [] => [(key, value)]
  | (k, v) :: entries =>
    if key < k then (key, value) :: (k, v) :: entries
    else if key = k then (key, value) :: entries
    else (k, v) :: insertEntry key value entries

def isBareChar (c : Char) : Bool := isLetter c || isDigit c || c = '_' || c = '-'

def LocalDate.text (d : LocalDate) : List Char :=
  padded 4 d.year ++ '-' :: padded 2 d.month ++ '-' :: padded 2 d.day

/-- A fraction is written without zeros at its end. -/
def LocalTime.text (t : LocalTime) : List Char :=
  padded 2 t.hour ++ ':' :: padded 2 t.minute ++ ':' :: padded 2 t.second ++
    if t.nanos = 0 then [] else '.' :: ((padded 9 t.nanos).reverse.dropWhile (· = '0')).reverse

def Offset.text : Offset → List Char
  | .utc => ['Z']
  | .minutes n =>
    (if n < 0 then '-' else '+') :: padded 2 (n.natAbs / 60) ++ ':' :: padded 2 (n.natAbs % 60)

def DateTime.text : DateTime → List Char
  | .date d => d.text
  | .time t => t.text
  | .dateTime d t offset => d.text ++ 'T' :: t.text ++ (offset.map Offset.text).getD []

end Sift.Toml

import Sift.Toml.Document
import Sift.Toml.Scalar

/-!
# Reading TOML documents

A reader takes something from the front of a text and hands back the rest, which
is shorter. Values nest no deeper than a fixed limit, and neither does a key have
more parts than that.
-/

namespace Sift.Toml

open Sift.Text

/-- A text that is left over after something was read from `s`. -/
abbrev Rest (s : List Char) := { r : List Char // r.length < s.length }

def Rest.of? (s r : List Char) : Option (Rest s) :=
  if h : r.length < s.length then some ⟨r, h⟩ else none

def nestingLimit : Nat := 80

def isSpace (c : Char) : Bool := c = ' ' || c = '\t'

def skipSpaces (s : List Char) : List Char := s.dropWhile isSpace

/-- Skip white space, newlines and comments, as between the elements of an array. A
comment that is not closed by a newline is left where it breaks off. -/
def skipGap (inComment : Bool) : List Char → List Char
  | [] => []
  | c :: s =>
    if c = '\n' then skipGap false s
    else if inComment then if isTextChar c then skipGap true s else c :: s
    else if isSpace c then skipGap false s
    else if c = '#' then skipGap true s
    else c :: s

def endOfLine (inComment : Bool) : List Char → Option (List Char)
  | [] => some []
  | c :: s =>
    if c = '\n' then some s
    else if inComment then if isTextChar c then endOfLine true s else none
    else if isSpace c then endOfLine false s
    else if c = '#' then endOfLine true s
    else none

theorem length_skipGap_le (inComment : Bool) (s : List Char) :
    (skipGap inComment s).length ≤ s.length := by
  induction s generalizing inComment with
  | nil => simp [skipGap]
  | cons c s ih =>
    have skipped (b : Bool) : (skipGap b s).length ≤ (c :: s).length :=
      Nat.le_succ_of_le (ih b)
    rw [skipGap]
    repeat' split
    all_goals simp only [skipped, Nat.le_refl]

theorem length_skipSpaces_le (s : List Char) : (skipSpaces s).length ≤ s.length :=
  (List.dropWhile_suffix _).length_le

def simpleKey? (s : List Char) : Option (List Char × List Char) :=
  match s with
  | '"' :: s => basicString s
  | '\'' :: s => literalString s
  | s =>
    let bare := s.takeWhile isBareChar
    if bare = [] then none else some (bare, s.dropWhile isBareChar)

def keyParts (s : List Char) : Option (List String × Rest s) :=
  match simpleKey? (skipSpaces s) with
  | none => none
  | some (key, after) =>
    match skipSpaces after with
    | '.' :: rest =>
      if h : rest.length < s.length then
        match keyParts rest with
        | some (keys, r) => some (String.ofList key :: keys, ⟨r.1, Nat.lt_trans r.2 h⟩)
        | none => none
      else none
    | rest => (Rest.of? s rest).map fun r => ([String.ofList key], r)
termination_by s.length

def keyPath (s : List Char) : Option (List String × Rest s) :=
  match keyParts s with
  | some (path, r) => if path.length < nestingLimit then some (path, r) else none
  | none => none

abbrev ValueReader := (s : List Char) → Option (Value × Rest s)

def scalar : ValueReader := fun s =>
  match string? s with
  | some (text, rest) => (Rest.of? s rest).map fun r => (.string (String.ofList text), r)
  | none =>
    let (run, rest) := takeRun s
    match scalarOfRun? run, Rest.of? s rest with
    | some v, some r => some (v, r)
    | _, _ => none

/-- The elements of an array after its opening bracket; a comma may stand after the
last. -/
def elements (value : ValueReader) (s : List Char) : Option (List Value × Rest s) :=
  match _ : skipGap false s with
  | ']' :: rest => (Rest.of? s rest).map fun r => ([], r)
  | start =>
    match value start with
    | none => none
    | some (v, after) =>
      match _ : skipGap false after.1 with
      | ',' :: rest =>
        have : rest.length < s.length := by
          have := length_skipGap_le false s
          have := length_skipGap_le false after.1
          have := after.2
          simp_all
          omega
        match elements value rest with
        | some (vs, r) => some (v :: vs, ⟨r.1, Nat.lt_trans r.2 this⟩)
        | none => none
      | ']' :: rest => (Rest.of? s rest).map fun r => ([v], r)
      | _ => none
termination_by s.length

def keyValue (value : ValueReader) (s : List Char) :
    Option ((List String × Value) × Rest s) :=
  match keyPath s with
  | none => none
  | some (path, after) =>
    match after.1 with
    | '=' :: rest =>
      match value (skipSpaces rest) with
      | some (v, r) => (Rest.of? s r.1).map fun r => ((path, v), r)
      | none => none
    | _ => none

/-- The entries of an inline table after its opening brace, of which there is at
least one. -/
def pairs (value : ValueReader) (s : List Char) :
    Option (List (List String × Value) × Rest s) :=
  match keyValue value s with
  | none => none
  | some (pair, after) =>
    match skipSpaces after.1 with
    | ',' :: rest =>
      if h : rest.length < s.length then
        match pairs value rest with
        | some (others, r) => some (pair :: others, ⟨r.1, Nat.lt_trans r.2 h⟩)
        | none => none
      else none
    | '\x7d' :: rest => (Rest.of? s rest).map fun r => ([pair], r)
    | _ => none
termination_by s.length

/-- A value with at most `depth` levels of arrays and inline tables. -/
def value : Nat → ValueReader
  | 0 => scalar
  | depth + 1 => fun s =>
    match s with
    | '[' :: inner =>
      match elements (value depth) inner with
      | some (vs, r) => (Rest.of? ('[' :: inner) r.1).map fun r => (.array vs, r)
      | none => none
    | '\x7b' :: inner =>
      match skipSpaces inner with
      | '\x7d' :: rest => (Rest.of? ('\x7b' :: inner) rest).map fun r => (.table [], r)
      | _ =>
        match pairs (value depth) inner with
        | some (entries, r) =>
          match tableOfPairs entries, Rest.of? ('\x7b' :: inner) r.1 with
          | some v, some r => some (v, r)
          | _, _ => none
        | none => none
    | s => scalar s

def headerPath (s : List Char) : Option (List String × List Char) :=
  match keyPath s with
  | some (path, ⟨']' :: rest, _⟩) => some (path, rest)
  | _ => none

def statement (s : List Char) : Option (Statement × List Char) :=
  match s with
  | '[' :: '[' :: s =>
    match headerPath s with
    | some (path, ']' :: rest) => (endOfLine false rest).map fun r => (.elementHeader path, r)
    | _ => none
  | '[' :: s =>
    match headerPath s with
    | some (path, rest) => (endOfLine false rest).map fun r => (.header path, r)
    | none => none
  | s =>
    match keyValue (value (nestingLimit - 1)) s with
    | some ((path, v), rest) => (endOfLine false rest.1).map fun r => (.entry path v, r)
    | none => none

def statements (s : List Char) : Option (List Statement) :=
  match skipGap false s with
  | [] => some []
  | start =>
    match statement start with
    | none => none
    | some (first, rest) =>
      if rest.length < s.length then (statements rest).map (first :: ·) else none
termination_by s.length

/-- A carriage return counts only together with a line feed, as a newline. -/
def unifyNewlines : List Char → List Char
  | [] => []
  | '\r' :: '\n' :: s => '\n' :: unifyNewlines s
  | c :: s => c :: unifyNewlines s

def dropMark : List Char → List Char
  | c :: s => if c = '\uFEFF' then s else c :: s
  | [] => []

def read (text : String) : Option Value :=
  (statements (unifyNewlines (dropMark text.toList))).bind tableOfStatements

end Sift.Toml

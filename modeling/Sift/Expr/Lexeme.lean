import Sift.Expr
import Sift.Expr.ParseError
import Sift.Text.Cursor

/-!
# The lexemes of an expression

Outside a comparison every character is a lexeme of its own. A comparison is a
field name, an operator and a value with blanks allowed between them, and is one
lexeme: where a field name is followed by an operator, a comparison has begun and
a value must come. Every lexeme takes at least one character, so scanning ends.
-/

namespace Sift

open Sift.Text

def isWordChar (c : Char) : Bool :=
  isLetter c || isDigit c || c = '_' || c = '-'

def startsWord (c : Char) : Bool := isLetter c || c = '_'

def isSymbolChar (c : Char) : Bool := c ∈ "!@#$%^*~\x60?".toList

/-- The number of characters of the operator in front; 0 if there is none. The
relational operators are tried first, so `!=` is never `!` and something else. -/
def operatorLength : List Char → Nat
  | '!' :: '=' :: _ => 2
  | '>' :: '=' :: _ => 2
  | '<' :: '=' :: _ => 2
  | '=' :: _ => 1
  | '>' :: _ => 1
  | '<' :: _ => 1
  | s => ((s.take 2).takeWhile isSymbolChar).length

/-- The number of characters of the number in front; 0 if there is none. A point
belongs to the number only if a digit follows it. -/
def numberLength (s : List Char) : Nat :=
  let sign := if s.head? = some '-' then 1 else 0
  let whole := ((s.drop sign).takeWhile isDigit).length
  let fraction :=
    match s.drop (sign + whole) with
    | '.' :: s => (s.takeWhile isDigit).length
    | _ => 0
  if whole = 0 then 0
  else if fraction = 0 then sign + whole
  else sign + whole + 1 + fraction

/-- The number in front and its length. A whole number that fits in 64 bits is an
integer, and every other number is a float. -/
def readNumber? (s : List Char) : Option (Literal × Nat) :=
  let n := numberLength s
  let text := s.take n
  match intOfText? text with
  | some i =>
    if Int64.minValue.toInt ≤ i ∧ i ≤ Int64.maxValue.toInt then some (.int (Int64.ofInt i), n)
    else some (.float (Binary64.ofInt i), n)
  | none => (Decimal.ofText? text).map fun d => (.float (Binary64.ofDecimal d), n)

def quotedLength? : List Char → Option Nat
  | [] => none
  | '\'' :: _ => some 0
  | '\\' :: [] => none
  | '\\' :: _ :: s => (quotedLength? s).map (· + 2)
  | _ :: s => (quotedLength? s).map (· + 1)

def unescape : List Char → List Char
  | [] => []
  | '\\' :: c :: s => c :: unescape s
  | c :: s => c :: unescape s

def literalOfWord (s : List Char) : Literal :=
  match String.ofList s with
  | "true" => .bool true
  | "false" => .bool false
  | "null" => .null
  | word => .string word

inductive ValueReading where
  | nothing
  | unterminated
  | value (literal : Literal) (length : Nat)

def readValue (s : List Char) : ValueReading :=
  match readNumber? s with
  | some (literal, n) => .value literal n
  | none =>
    match s with
    | [] => .nothing
    | c :: rest =>
      if c = '\'' then
        match quotedLength? rest with
        | none => .unterminated
        | some n => .value (.string (String.ofList (unescape (rest.take n)))) (n + 2)
      else if startsWord c then
        let word := s.takeWhile isWordChar
        .value (literalOfWord word) word.length
      else .nothing

inductive ComparisonReading where
  | nothing
  | fault (error : ParseError)
  | comparison (c : Comparison) (next : Cursor)

def readComparison (c : Cursor) : ComparisonReading :=
  let field := c.rest.takeWhile isFieldChar
  let beforeOperator := (c.drop field.length).skipBlanks
  let n := operatorLength beforeOperator.rest
  if field = [] || n = 0 then .nothing
  else
    let beforeValue := (beforeOperator.drop n).skipBlanks
    match readValue beforeValue.rest with
    | .nothing => .fault (.missingValue (String.ofList field) beforeValue.offset)
    | .unterminated => .fault (.unterminatedString beforeValue.offset)
    | .value literal length =>
      .comparison
        ⟨String.ofList field, String.ofList (beforeOperator.rest.take n), literal⟩
        (beforeValue.drop length).skipBlanks

inductive Token where
  | opening
  | closing
  | connector (c : Connector)
  | comparison (c : Comparison)
  | stray
  | fault (error : ParseError)
deriving DecidableEq

/-- A token with the place and the first character of its text. -/
structure Lexeme where
  offset : Nat
  head : Char
  token : Token
deriving DecidableEq

theorem length_rest_of_readComparison {c : Cursor} {comparison : Comparison} {next : Cursor}
    (h : readComparison c = .comparison comparison next) :
    next.rest.length < c.rest.length := by
  simp only [readComparison] at h
  split at h
  · simp at h
  · next hn =>
    split at h
    · simp at h
    · simp at h
    · simp only [ComparisonReading.comparison.injEq] at h
      obtain ⟨_, rfl⟩ := h
      have hpos : 0 < (c.rest.takeWhile isFieldChar).length := by
        apply List.length_pos_iff.2
        intro hnil
        simp [hnil] at hn
      have hle : (c.rest.takeWhile isFieldChar).length ≤ c.rest.length :=
        (List.takeWhile_prefix _).length_le
      refine Nat.lt_of_le_of_lt (Cursor.length_rest_skipWhile_le _ _) ?_
      refine Nat.lt_of_le_of_lt (Cursor.length_rest_drop_le _ _) ?_
      refine Nat.lt_of_le_of_lt (Cursor.length_rest_skipWhile_le _ _) ?_
      refine Nat.lt_of_le_of_lt (Cursor.length_rest_drop_le _ _) ?_
      refine Nat.lt_of_le_of_lt (Cursor.length_rest_skipWhile_le _ _) ?_
      simp only [Cursor.rest_drop, List.length_drop]
      omega

namespace Lexeme

/-- The lexemes up to the end of the text or to the first comparison without a
proper value. -/
def scan (c : Cursor) : List Lexeme :=
  match _ : c.rest with
  | [] => []
  | x :: _ =>
    if isBlank x then scan (c.drop 1)
    else if x = '(' then ⟨c.offset, x, .opening⟩ :: scan (c.drop 1)
    else if x = ')' then ⟨c.offset, x, .closing⟩ :: scan (c.drop 1)
    else
      match _ : readComparison c with
      | .comparison comparison next => ⟨c.offset, x, .comparison comparison⟩ :: scan next
      | .fault error => [⟨c.offset, x, .fault error⟩]
      | .nothing =>
        let token : Token :=
          if x = '&' then .connector .and else if x = '|' then .connector .or else .stray
        ⟨c.offset, x, token⟩ :: scan (c.drop 1)
termination_by c.rest.length
decreasing_by
  · simp [*]
  · simp [*]
  · simp [*]
  · exact length_rest_of_readComparison ‹_›
  · simp [*]

end Lexeme

end Sift

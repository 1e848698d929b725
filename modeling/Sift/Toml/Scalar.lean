import Sift.Binary64.Rounding
import Sift.Time.Calendar
import Sift.Toml

/-!
# Reading TOML scalars

A number, a date or a boolean is a run of characters without blanks or brackets,
and the run as a whole has to be one of them. Strings come in four forms: with
escapes or without, on one line or on several.
-/

namespace Sift.Toml

open Sift.Text

def isHexDigit (c : Char) : Bool :=
  isDigit c || ('a' ≤ c && c ≤ 'f') || ('A' ≤ c && c ≤ 'F')

def hexValue (c : Char) : Nat :=
  if isDigit c then digitValue c
  else if 'a' ≤ c then c.toNat - 'a'.toNat + 10
  else c.toNat - 'A'.toNat + 10

def natOfRadix (radix : Nat) (s : List Char) : Nat :=
  s.foldl (fun n c => radix * n + hexValue c) 0

/-- Digits that go on after a digit; an underscore may stand between two. -/
def moreDigits (isOne : Char → Bool) : List Char → List Char × List Char
  | [] => ([], [])
  | '_' :: c :: s =>
    if isOne c then
      let (digits, rest) := moreDigits isOne s
      (c :: digits, rest)
    else ([], '_' :: c :: s)
  | c :: s =>
    if isOne c then
      let (digits, rest) := moreDigits isOne s
      (c :: digits, rest)
    else ([], c :: s)

def someDigits (isOne : Char → Bool) : List Char → Option (List Char × List Char)
  | [] => none
  | c :: s =>
    if isOne c then
      let (digits, rest) := moreDigits isOne s
      some (c :: digits, rest)
    else none

/-- Decimal digits without a zero in front, unless zero is all there is. -/
def wholeDigits : List Char → Option (List Char × List Char)
  | '0' :: s => some (['0'], s)
  | s => someDigits isDigit s

def fits64 (i : Int) : Bool := Int64.minValue.toInt ≤ i && i ≤ Int64.maxValue.toInt

def radixInteger? (radix : Nat) (isOne : Char → Bool) (s : List Char) : Option Int :=
  match someDigits isOne s with
  | some (digits, []) => some (natOfRadix radix digits)
  | _ => none

def decimalInteger? (s : List Char) : Option Int :=
  let (negative, unsigned) := takeSign s
  match wholeDigits unsigned with
  | some (digits, []) =>
    some (if negative then -(natOfDigits digits : Int) else natOfDigits digits)
  | _ => none

def integer? : List Char → Option Int
  | '0' :: 'x' :: s => radixInteger? 16 isHexDigit s
  | '0' :: 'o' :: s => radixInteger? 8 (fun c => '0' ≤ c && c ≤ '7') s
  | '0' :: 'b' :: s => radixInteger? 2 (fun c => c = '0' || c = '1') s
  | s => decimalInteger? s

def floatExponent? : List Char → Option Int
  | [] => none
  | c :: s =>
    if c = 'e' || c = 'E' then
      let (negative, unsigned) := takeSign s
      match someDigits isDigit unsigned with
      | some (digits, []) =>
        some (if negative then -(natOfDigits digits : Int) else natOfDigits digits)
      | _ => none
    else none

def decimal? (s : List Char) : Option Decimal := do
  let (negative, unsigned) := takeSign s
  let (whole, s) ← wholeDigits unsigned
  match s with
  | '.' :: s =>
    let (fraction, s) ← someDigits isDigit s
    let exponent ← if s = [] then some 0 else floatExponent? s
    return ⟨negative, natOfDigits (whole ++ fraction), exponent - fraction.length⟩
  | s =>
    let exponent ← floatExponent? s
    return ⟨negative, natOfDigits whole, exponent⟩

/-- Names of special floats, and numerals; a numeral too large to be finite is
refused unless it is negative. -/
def float? (s : List Char) : Option Binary64 :=
  let (negative, name) := takeSign s
  match String.ofList name with
  | "inf" => some (.infinity negative)
  | "nan" => some (.nan negative)
  | _ =>
    match decimal? s with
    | none => none
    | some d =>
      let x := Binary64.ofDecimal d
      if x = .infinity false then none else some x

def takeDate (s : List Char) : Option (LocalDate × List Char) := do
  let (year, s) ← takeDigits 4 s
  let (month, s) ← takeDigits 2 (← takeChar ['-'] s)
  let (day, s) ← takeDigits 2 (← takeChar ['-'] s)
  if 1 ≤ day ∧ day ≤ Time.daysInMonth year month then some (⟨year, month, day⟩, s) else none

def takeTime (s : List Char) : Option (LocalTime × List Char) := do
  let (hour, s) ← takeDigits 2 s
  let (minute, s) ← takeDigits 2 (← takeChar [':'] s)
  let (second, s) ← takeDigits 2 (← takeChar [':'] s)
  let (nanos, s) ← takeNanos s
  if hour ≤ 23 ∧ minute ≤ 59 ∧ second ≤ 60 then some (⟨hour, minute, second, nanos⟩, s)
  else none

def offset? : List Char → Option Offset
  | [] => none
  | c :: s =>
    if c = 'Z' || c = 'z' then if s = [] then some .utc else none
    else if c = '+' || c = '-' then do
      let (hours, s) ← takeDigits 2 s
      let (minutes, s) ← takeDigits 2 (← takeChar [':'] s)
      if s = [] ∧ hours ≤ 23 ∧ minutes ≤ 59 then
        let n : Int := 60 * hours + minutes
        some (.minutes (if c = '-' then -n else n))
      else none
    else none

/-- What follows a date: nothing, or a time after a letter or one space, and an
optional offset. -/
def afterDate? (d : LocalDate) : List Char → Option DateTime
  | [] => some (.date d)
  | c :: s =>
    if c = 'T' || c = 't' || c = ' ' then
      match takeTime s with
      | none => none
      | some (t, []) => some (.dateTime d t none)
      | some (t, s) => (offset? s).map fun o => .dateTime d t (some o)
    else none

def dateTime? (s : List Char) : Option DateTime :=
  match takeDate s with
  | some (d, s) => afterDate? d s
  | none =>
    match takeTime s with
    | some (t, []) => some (.time t)
    | _ => none

def isRunChar (c : Char) : Bool :=
  isLetter c || isDigit c || c = '_' || c = '+' || c = '-' || c = '.' || c = ':'

/-- The run in front. A date with a digit after one space goes on with the time. -/
def takeRun (s : List Char) : List Char × List Char :=
  let run := s.takeWhile isRunChar
  match takeDate run, s.dropWhile isRunChar with
  | some (_, []), ' ' :: c :: rest =>
    if isDigit c then
      (run ++ ' ' :: (c :: rest).takeWhile isRunChar, (c :: rest).dropWhile isRunChar)
    else (run, ' ' :: c :: rest)
  | _, rest => (run, rest)

def scalarOfRun? (run : List Char) : Option Value :=
  match String.ofList run with
  | "true" => some (.boolean true)
  | "false" => some (.boolean false)
  | _ =>
    match dateTime? run with
    | some d => some (.dateTime d)
    | none =>
      match float? run with
      | some x => some (.float x)
      | none =>
        match integer? run with
        | some i => if fits64 i then some (.integer (Int64.ofInt i)) else none
        | none => none

/-- Control characters, apart from the tab, stand in no string and no comment. -/
def isTextChar (c : Char) : Bool := c = '\t' || (0x20 ≤ c.toNat && c.toNat ≠ 0x7f)

def simpleEscape? (c : Char) : Option Char :=
  match c with
  | 'b' => some '\x08'
  | 't' => some '\t'
  | 'n' => some '\n'
  | 'f' => some '\x0c'
  | 'r' => some '\r'
  | '"' => some '"'
  | '\\' => some '\\'
  | _ => none

def codePoint? (digits : List Char) : Option Char :=
  let n := natOfRadix 16 digits
  if digits.all isHexDigit ∧ n.isValidChar then some (Char.ofNat n) else none

def prepend (c : Option Char) (r : Option (List Char × List Char)) :
    Option (List Char × List Char) :=
  match c, r with
  | some c, some (text, rest) => some (c :: text, rest)
  | _, _ => none

def basicString : List Char → Option (List Char × List Char)
  | [] => none
  | '"' :: s => some ([], s)
  | '\\' :: 'u' :: a :: b :: c :: d :: s => prepend (codePoint? [a, b, c, d]) (basicString s)
  | '\\' :: 'U' :: a :: b :: c :: d :: e :: f :: g :: h :: s =>
    prepend (codePoint? [a, b, c, d, e, f, g, h]) (basicString s)
  | '\\' :: c :: s => prepend (simpleEscape? c) (basicString s)
  | c :: s => if isTextChar c then prepend (some c) (basicString s) else none

def literalString : List Char → Option (List Char × List Char)
  | [] => none
  | '\'' :: s => some ([], s)
  | c :: s => if isTextChar c then prepend (some c) (literalString s) else none

/-- After three closing quotes: up to two more belong to the text. -/
def closingQuotes (quote : Char) : List Char → List Char × List Char
  | a :: b :: s =>
    if a = quote && b = quote then ([quote, quote], s)
    else if a = quote then ([quote], b :: s)
    else ([], a :: b :: s)
  | [a] => if a = quote then ([quote], []) else ([], [a])
  | [] => ([], [])

inductive Folding where
  | none
  | beforeNewline
  | afterNewline
deriving DecidableEq

/-- The text of a string on several lines. A backslash at the end of a line takes
with it all white space up to the next other character. -/
def longBasicString : Folding → List Char → Option (List Char × List Char)
  | _, [] => Option.none
  | .beforeNewline, c :: s =>
    if c = ' ' || c = '\t' then longBasicString .beforeNewline s
    else if c = '\n' then longBasicString .afterNewline s
    else Option.none
  | .afterNewline, ' ' :: s => longBasicString .afterNewline s
  | .afterNewline, '\t' :: s => longBasicString .afterNewline s
  | .afterNewline, '\n' :: s => longBasicString .afterNewline s
  | _, '"' :: '"' :: '"' :: s => some (closingQuotes '"' s)
  | _, '\\' :: 'u' :: a :: b :: c :: d :: s =>
    prepend (codePoint? [a, b, c, d]) (longBasicString .none s)
  | _, '\\' :: 'U' :: a :: b :: c :: d :: e :: f :: g :: h :: s =>
    prepend (codePoint? [a, b, c, d, e, f, g, h]) (longBasicString .none s)
  | _, '\\' :: c :: s =>
    if c = '\n' then longBasicString .afterNewline s
    else if c = ' ' || c = '\t' then longBasicString .beforeNewline s
    else prepend (simpleEscape? c) (longBasicString .none s)
  | _, c :: s =>
    if isTextChar c || c = '\n' then prepend (some c) (longBasicString .none s)
    else Option.none

def longLiteralString : List Char → Option (List Char × List Char)
  | [] => none
  | '\'' :: '\'' :: '\'' :: s => some (closingQuotes '\'' s)
  | c :: s => if isTextChar c || c = '\n' then prepend (some c) (longLiteralString s) else none

def dropNewline : List Char → List Char
  | '\n' :: s => s
  | s => s

def string? : List Char → Option (List Char × List Char)
  | '"' :: '"' :: '"' :: s => longBasicString .none (dropNewline s)
  | '"' :: s => basicString s
  | '\'' :: '\'' :: '\'' :: s => longLiteralString (dropNewline s)
  | '\'' :: s => literalString s
  | _ => none

end Sift.Toml

import Sift.Text.Blank

/-!
# Decimal numerals

A decimal numeral is a sign, a whole number and a power of ten. One grammar is
read here: an optional sign, digits with an optional fraction or a fraction
alone, and an optional exponent. Printing goes through the digits of the whole
number; where the point goes is the choice of each layout.
-/

namespace Sift.Text

structure Decimal where
  negative : Bool
  digits : Nat
  exponent : Int
deriving DecidableEq

def digitValue (c : Char) : Nat := c.toNat - '0'.toNat

def natOfDigits (s : List Char) : Nat :=
  s.foldl (fun n c => 10 * n + digitValue c) 0

def digitsOfNat (n : Nat) : List Char := Nat.toDigits 10 n

def digitsOfInt (i : Int) : List Char :=
  if i < 0 then '-' :: digitsOfNat i.natAbs else digitsOfNat i.natAbs

/-- The number of decimal digits; zero has one. -/
def digitCount (n : Nat) : Nat := (digitsOfNat n).length

def padded (width n : Nat) : List Char :=
  let digits := digitsOfNat n
  List.replicate (width - digits.length) '0' ++ digits

def takeDigits (n : Nat) (s : List Char) : Option (Nat × List Char) :=
  let digits := s.take n
  if digits.length = n ∧ digits.all isDigit then some (natOfDigits digits, s.drop n) else none

/-- A fraction of a second in nanoseconds: a point and at least one digit; digits
after the ninth are dropped. No point is no fraction. -/
def takeNanos : List Char → Option (Nat × List Char)
  | '.' :: s =>
    let digits := s.takeWhile isDigit
    let kept := digits.take 9
    if digits = [] then none
    else some (natOfDigits kept * Nat.pow 10 (9 - kept.length), s.drop digits.length)
  | s => some (0, s)

/-- An optional sign in front; `true` is the minus. -/
def takeSign : List Char → Bool × List Char
  | '-' :: s => (true, s)
  | '+' :: s => (false, s)
  | s => (false, s)

def intOfText? (s : List Char) : Option Int :=
  let (negative, digits) := takeSign s
  if digits ≠ [] && digits.all isDigit then
    some (if negative then -(natOfDigits digits : Int) else natOfDigits digits)
  else none

namespace Decimal

/-- The exponent part up to the end of the text; nothing at all is exponent 0. -/
def exponentOfText? : List Char → Option Int
  | [] => some 0
  | c :: s => if c = 'e' || c = 'E' then intOfText? s else none

def ofText? (s : List Char) : Option Decimal :=
  let (negative, unsigned) := takeSign s
  let whole := unsigned.takeWhile isDigit
  let (fraction, rest) :=
    match unsigned.dropWhile isDigit with
    | '.' :: s => (s.takeWhile isDigit, s.dropWhile isDigit)
    | s => ([], s)
  if whole = [] && fraction = [] then none
  else
    (exponentOfText? rest).map fun e =>
      ⟨negative, natOfDigits (whole ++ fraction), e - fraction.length⟩

def positional (d : Decimal) : List Char :=
  let digits := digitsOfNat d.digits
  let sign := if d.negative then ['-'] else []
  match d.exponent with
  | .ofNat e => sign ++ (if d.digits = 0 then digits else digits ++ List.replicate e '0')
  | .negSucc e =>
    let places := e + 1
    let padded := List.replicate (places + 1 - digits.length) '0' ++ digits
    sign ++ padded.take (padded.length - places) ++ '.' :: padded.drop (padded.length - places)

/-- Where the point stands: the value is `0.d₁d₂… × 10 ^ point` with `d₁` its
first digit. -/
def point (d : Decimal) : Int := digitCount d.digits + d.exponent

end Decimal

def withFraction (s : List Char) : List Char :=
  if s.contains '.' then s else s ++ ['.', '0']

end Sift.Text

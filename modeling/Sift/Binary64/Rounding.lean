import Sift.Binary64
import Sift.Text.Decimal

/-!
# Rounding to the nearest binary number

Every number is rounded from an exact fraction to the nearest value, and a value
halfway between two neighbours goes to the one with an even significand. The
arithmetic is on natural numbers throughout: the place of the last bit is found
first, and one division then decides.
-/

namespace Sift.Binary64

open Sift.Text

/-- The nearest whole number to `num / den`, halves to the even neighbour. -/
def roundHalfEven (num den : Nat) : Nat :=
  let q := num / den
  let r := num % den
  if 2 * r < den then q
  else if 2 * r > den then q + 1
  else q + q % 2

/-- The largest `a` with `2 ^ a ≤ num / den`, for positive `num` and `den`. -/
def floorLog2 (num den : Nat) : Int :=
  let a : Int := (num.log2 : Int) - den.log2
  if num * Nat.pow 2 (-a).toNat < den * Nat.pow 2 a.toNat then a - 1 else a

def ofRatio (negative : Bool) (num den : Nat) : Binary64 :=
  if num = 0 then zero negative
  else
    let scale := max (floorLog2 num den - 52) (-1074)
    let significand :=
      roundHalfEven (num * Nat.pow 2 (-scale).toNat) (den * Nat.pow 2 scale.toNat)
    ofRank negative ((scale + 1074).toNat * fractionCount + significand)

def ofInt (i : Int) : Binary64 := ofRatio (i < 0) i.natAbs 1

/-- From `10 ^ 309` on every value is infinite, and below `10 ^ (-324)` half of
the least number is out of reach, so far exponents are never expanded. -/
def ofDecimal (d : Decimal) : Binary64 :=
  if d.digits = 0 then zero d.negative
  else if 310 ≤ d.point then infinity d.negative
  else if d.point < -324 then zero d.negative
  else
    ofRatio d.negative (d.digits * Nat.pow 10 d.exponent.toNat) (Nat.pow 10 (-d.exponent).toNat)

def special? (s : List Char) : Option (Bool → Binary64) :=
  match String.ofList (s.map lowerChar) with
  | "inf" | "infinity" => some infinity
  | "nan" => some nan
  | _ => none

def ofText? (s : List Char) : Option Binary64 :=
  match Decimal.ofText? s with
  | some d => some (ofDecimal d)
  | none =>
    let (negative, name) := takeSign s
    (special? name).map (· negative)

end Sift.Binary64

import Sift.Binary64.Rounding

/-!
# The fewest digits that read back

Among the decimals that round to a given number, those on the coarsest decimal
grid have the fewest digits, and of these the nearest is taken. Only the two
neighbours of the number on a grid can be nearest, so each grid needs one exact
division. When both neighbours are equally near, the caller says which is wanted.
-/

namespace Sift.Binary64

open Sift.Text

inductive Tie where
  | up
  | even
deriving DecidableEq

def numerator (x : Binary64) : Nat := x.significand * Nat.pow 2 x.scale.toNat

def denominator (x : Binary64) : Nat := Nat.pow 2 (-x.scale).toNat

def decimalPoint (num den : Nat) : Int :=
  if den ≤ num then digitCount (num / den)
  else
    let n := digitCount (den / num)
    if den = num * Nat.pow 10 (n - 1) then 2 - n else 1 - n

def readsBack (x : Binary64) (d : Decimal) : Bool := ofDecimal d = x

/-- The nearest decimal with last place `10 ^ exponent` that rounds to `x`. -/
def onGrid? (tie : Tie) (x : Binary64) (exponent : Int) : Option Decimal :=
  let num := x.numerator * Nat.pow 10 (-exponent).toNat
  let den := x.denominator * Nat.pow 10 exponent.toNat
  let q := num / den
  let r := num % den
  let below : Decimal := ⟨x.negative, q, exponent⟩
  let above : Decimal := ⟨x.negative, q + 1, exponent⟩
  let preferAbove :=
    2 * r > den || (2 * r = den && match tie with | .up => true | .even => q % 2 = 1)
  if x.readsBack below && !(preferAbove && x.readsBack above) then some below
  else if x.readsBack above then some above
  else none

/-- The exact decimal value of a finite number: a power of two in the denominator
becomes a power of five in the numerator. -/
def exactDecimal (x : Binary64) : Decimal :=
  let places := (-x.scale).toNat
  ⟨x.negative, x.numerator * Nat.pow 5 places, -places⟩

/-- Seventeen digits always suffice, so eighteen grids are tried before the exact
value is taken. -/
def shortest (tie : Tie) (x : Binary64) : Decimal :=
  if x.isZero then ⟨x.negative, 0, 0⟩
  else
    let k := decimalPoint x.numerator x.denominator
    ((List.range 18).findSome? fun (i : Nat) => onGrid? tie x (k - i)).getD x.exactDecimal

end Sift.Binary64

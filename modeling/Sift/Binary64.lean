/-!
# Binary floating-point numbers of 64 bits

A number is its three fields: the sign, eleven bits of exponent and fifty-two
bits of fraction. The largest exponent is kept for the infinities (fraction
zero) and for NaN. Every other number is `significand * 2 ^ scale`, exactly.
-/

namespace Sift

abbrev fractionCount : Nat := 4503599627370496

structure Binary64 where
  negative : Bool
  exponent : Fin 2048
  fraction : Fin fractionCount
deriving DecidableEq

namespace Binary64

def isFinite (x : Binary64) : Bool := x.exponent ≠ 2047

def isNaN (x : Binary64) : Bool := x.exponent = 2047 && x.fraction ≠ 0

/-- The whole number that `scale` shifts; the leading bit is implied unless the
exponent field is zero. -/
def significand (x : Binary64) : Nat :=
  if x.exponent = 0 then x.fraction else fractionCount + x.fraction

def scale (x : Binary64) : Int := (max 1 x.exponent.val : Nat) - 1075

def isZero (x : Binary64) : Bool := x.exponent = 0 && x.fraction = 0

/-- The numbers of one sign in rising order, counted from zero; the count of a
number is its exponent and fraction fields read as one. Counts from that of
the exponent 2047 on are infinite. -/
def ofRank (negative : Bool) (rank : Nat) : Binary64 :=
  if 2047 * fractionCount ≤ rank then ⟨negative, 2047, 0⟩
  else ⟨negative, Fin.ofNat 2048 (rank / fractionCount), Fin.ofNat fractionCount rank⟩

def zero (negative : Bool) : Binary64 := ⟨negative, 0, 0⟩

def infinity (negative : Bool) : Binary64 := ⟨negative, 2047, 0⟩

def nan (negative : Bool) : Binary64 := 
  ⟨negative, 2047, Fin.ofNat fractionCount (fractionCount / 2)⟩

/-- Numeric equality: the zeros are equal, and NaN is equal to nothing. -/
def sameNumber (x y : Binary64) : Bool :=
  !x.isNaN && !y.isNaN && (x = y || (x.isZero && y.isZero))

end Binary64

end Sift

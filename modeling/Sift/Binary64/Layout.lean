import Sift.Binary64.Shortest

/-!
# Three ways to write a number

All three write the fewest digits that read back and differ in layout. Plain text
is positional for every magnitude. JSON changes to an exponent for very large and
very small numbers. TOML is positional and has names for the infinities and NaN.
-/

namespace Sift.Binary64

open Sift.Text

def signText (negative : Bool) : List Char := if negative then ['-'] else []

/-- Positional digits, without a point for a whole number; the sign of NaN is not
written. -/
def plainText (x : Binary64) : List Char :=
  if x.isNaN then "NaN".toList
  else if x.isFinite then (x.shortest .up).positional
  else signText x.negative ++ "inf".toList

def scientific (d : Decimal) : List Char :=
  let exponent := d.point - 1
  let mantissa :=
    match digitsOfNat d.digits with
    | first :: second :: others => first :: '.' :: second :: others
    | digits => digits
  let sign := if exponent < 0 then '-' else '+'
  signText d.negative ++ mantissa ++ 'e' :: sign :: digitsOfNat exponent.natAbs

/-- Positional as long as the point is at most four places before the first digit
and at most sixteen after it. -/
def jsonText (x : Binary64) : List Char :=
  let d := x.shortest .even
  if d.digits = 0 || (-5 < d.point && d.point ≤ 16) then withFraction d.positional
  else scientific d

def tomlText (x : Binary64) : List Char :=
  if x.isNaN then signText x.negative ++ "nan".toList
  else if x.isFinite then withFraction (x.shortest .up).positional
  else signText x.negative ++ "inf".toList

end Sift.Binary64

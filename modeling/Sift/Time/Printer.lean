import Sift.Text.Decimal
import Sift.Time.Instant

/-!
# Dates as text

Instants are printed in UTC in the notation of RFC 3339. A year outside 0 to 9999
has a sign and at least four digits. A leap second is written as second 60, also
in a minute that never had one.
-/

namespace Sift.Time

open Sift.Text

def yearText (y : Int) : List Char :=
  if 0 ≤ y ∧ y ≤ 9999 then padded 4 y.toNat
  else (if y < 0 then '-' else '+') :: padded 4 y.natAbs

/-- The fraction of a second in three, six or nine digits, the fewest that lose
nothing. -/
def fractionText (nanos : Nat) : List Char :=
  if nanos = 0 then []
  else if nanos % 1000000 = 0 then '.' :: padded 3 (nanos / 1000000)
  else if nanos % 1000 = 0 then '.' :: padded 6 (nanos / 1000)
  else '.' :: padded 9 nanos

namespace Instant

def secondsText (t : Instant) : List Char :=
  let (year, month, day) := partsOfDay t.day
  let s := t.secondOfDay.toNat
  let second := s % 60 + (if t.isLeapSecond then 1 else 0)
  yearText year ++ '-' :: padded 2 month ++ '-' :: padded 2 day ++ 'T' ::
    padded 2 (s / 3600) ++ ':' :: padded 2 (s / 60 % 60) ++ ':' :: padded 2 second

def wholeText (t : Instant) : String := String.ofList (t.secondsText ++ ['Z'])

def fullText (t : Instant) : String :=
  String.ofList (t.secondsText ++ fractionText (t.nanos % nanosPerSecond) ++ ['Z'])

end Instant

end Sift.Time

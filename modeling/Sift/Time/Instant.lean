import Sift.Time.Calendar

/-!
# Instants

An instant is a count of seconds since 1970-01-01T00:00:00Z and nanoseconds
within the second. A leap second is written on the second before it, with one
thousand million nanoseconds more, and exists only at the end of a minute. The
calendar runs from the year -262143 to the year 262142; moving an instant
outside gives nothing.
-/

namespace Sift.Time

def firstSecond : Int := -8334601228800

def lastSecond : Int := 8210266876799

abbrev nanosPerSecond : Nat := 1000000000

structure Instant where
  seconds : Int
  nanos : Nat
  firstSecond_le : firstSecond ≤ seconds
  le_lastSecond : seconds ≤ lastSecond
  nanos_valid : nanos < nanosPerSecond ∨ seconds % 60 = 59 ∧ nanos < 2 * nanosPerSecond
deriving DecidableEq

namespace Instant

def ofParts? (seconds : Int) (nanos : Nat) : Option Instant :=
  if h : firstSecond ≤ seconds ∧ seconds ≤ lastSecond ∧
      (nanos < nanosPerSecond ∨ seconds % 60 = 59 ∧ nanos < 2 * nanosPerSecond) then
    some ⟨seconds, nanos, h.1, h.2.1, h.2.2⟩
  else none

def ofUnixSeconds? (seconds : Int) : Option Instant := ofParts? seconds 0

def ofUnixNanos? (nanos : Int) : Option Instant :=
  ofParts? (nanos / nanosPerSecond) (nanos % nanosPerSecond).toNat

def isLeapSecond (t : Instant) : Bool := nanosPerSecond ≤ t.nanos

def day (t : Instant) : Int := t.seconds / 86400

def secondOfDay (t : Instant) : Int := t.seconds % 86400

def startOfDay? (t : Instant) : Option Instant := ofUnixSeconds? (t.day * 86400)

/-- Move by whole seconds. A leap second counts as its own second: forward the
count starts at the second it is written on, backward at the one after. -/
def addSeconds? (t : Instant) (n : Int) : Option Instant :=
  if t.isLeapSecond then
    if n = 0 then some t
    else if 0 < n then ofParts? (t.seconds + n) (t.nanos - nanosPerSecond)
    else ofParts? (t.seconds + 1 + n) (t.nanos - nanosPerSecond)
  else ofParts? (t.seconds + n) t.nanos

/-- Move by months: the time of day stays, and a day past the end of the month
becomes its last day. The leap second after the last second cannot be reached. -/
def addMonths? (t : Instant) (n : Int) : Option Instant :=
  let (year, month, day) := partsOfDay t.day
  let index := 12 * year + (month - 1 : Nat) + n
  let year' := index / 12
  let month' := (index % 12).toNat + 1
  match Date.ofParts? year' month' (min day (daysInMonth year' month')) with
  | some date =>
    (ofParts? (86400 * date.dayNumber + t.secondOfDay) t.nanos).filter fun moved =>
      moved.seconds < lastSecond || !moved.isLeapSecond
  | none => none

end Instant

end Sift.Time

/-!
# The Gregorian calendar as a count of days

Dates of the proleptic Gregorian calendar correspond one to one to whole
numbers, day 0 being 1970-01-01. A year begins after a count of days that is
linear up to the leap days, so the year of a day is found by one division and a
correction of at most one year.
-/

namespace Sift.Time

def isLeapYear (y : Int) : Bool := y % 4 = 0 && (y % 100 ≠ 0 || y % 400 = 0)

def monthLengths (y : Int) : List Nat :=
  [31, if isLeapYear y then 29 else 28, 31, 30, 31, 30, 31, 31, 30, 31, 30, 31]

/-- The length of a month, counted from 1; 0 for a month that does not exist. -/
def daysInMonth (y : Int) (month : Nat) : Nat :=
  if month = 0 then 0 else (monthLengths y).getD (month - 1) 0

def startOfYear (y : Int) : Int :=
  365 * y + (y + 3) / 4 - (y + 99) / 100 + (y + 399) / 400 - 719528

structure Date where
  year : Int
  month : Nat
  day : Nat
  month_pos : 1 ≤ month
  month_le : month ≤ 12
  day_pos : 1 ≤ day
  day_le : day ≤ daysInMonth year month
deriving DecidableEq

namespace Date

def ofParts? (year : Int) (month day : Nat) : Option Date :=
  if h : 1 ≤ month ∧ month ≤ 12 ∧ 1 ≤ day ∧ day ≤ daysInMonth year month then
    some ⟨year, month, day, h.1, h.2.1, h.2.2.1, h.2.2.2⟩
  else none

def daysBeforeMonth (d : Date) : Nat :=
  ((monthLengths d.year).take (d.month - 1)).foldr (· + ·) 0

def dayNumber (d : Date) : Int :=
  startOfYear d.year + d.daysBeforeMonth + (d.day - 1 : Nat)

end Date

/-- The year that holds a day: 400 years are 146097 days, which gives a first
guess. -/
def yearOfDay (n : Int) : Int :=
  let guess := 400 * (n + 719528) / 146097
  if n < startOfYear guess then guess - 1
  else if startOfYear (guess + 1) ≤ n then guess + 1
  else guess

/-- Walk through months of the given lengths: the number of whole months passed
and the days left over. -/
def splitByLengths : List Nat → Nat → Nat × Nat
  | [], n => (0, n)
  | len :: rest, n =>
    if n < len then (0, n)
    else
      let (months, days) := splitByLengths rest (n - len)
      (months + 1, days)

def partsOfDay (n : Int) : Int × Nat × Nat :=
  let year := yearOfDay n
  let (months, days) := splitByLengths (monthLengths year) (n - startOfYear year).toNat
  (year, months + 1, days + 1)

end Sift.Time

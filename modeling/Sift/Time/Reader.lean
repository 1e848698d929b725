import Sift.Text.Decimal
import Sift.Time.Instant

/-!
# Reading dates

A date is absolute or relative to a given instant. Absolute dates are a count of
seconds after `@`, the notation of RFC 3339, or one of six patterns in UTC. The
patterns are looser than they look: a number may have fewer digits than its place
allows and white space before it, and a year may have a sign and then any number
of digits. Relative dates are names of days and shifts by a number of units.
-/

namespace Sift.Time

open Sift.Text

structure Fields where
  year : Nat × Bool := (0, false)
  month : Nat := 0
  day : Nat := 0
  hour : Nat := 0
  minute : Nat := 0
  second : Nat := 0
  nanos : Nat := 0
deriving DecidableEq

namespace Fields

def yearValue (f : Fields) : Int := if f.year.2 then -(f.year.1 : Int) else f.year.1

/-- The instant of the fields for a clock that is `offset` seconds ahead of UTC.
Second 60 is the leap second after second 59. -/
def toInstant? (f : Fields) (offset : Int) : Option Instant :=
  if f.hour ≤ 23 ∧ f.minute ≤ 59 ∧ f.second ≤ 60 then
    match Date.ofParts? f.yearValue f.month f.day with
    | none => none
    | some date =>
      let clock : Int := 3600 * f.hour + 60 * f.minute + min f.second 59
      let nanos := f.nanos + (if f.second = 60 then nanosPerSecond else 0)
      Instant.ofParts? (86400 * date.dayNumber + clock - offset) nanos
  else none

end Fields

inductive PatternItem where
  | year | month | day | hour | minute | second
  | gap
  | exactly (c : Char)

def datePattern (separator : Char) : List PatternItem :=
  [.year, .exactly separator, .month, .exactly separator, .day]

def minutePattern : List PatternItem := [.hour, .exactly ':', .minute]

def secondPattern : List PatternItem := minutePattern ++ [.exactly ':', .second]

/-- The patterns in the order in which they are tried. -/
def patterns : List (List PatternItem) :=
  [ datePattern '-' ++ .gap :: secondPattern,
    datePattern '-' ++ .exactly 'T' :: secondPattern,
    datePattern '-' ++ .gap :: minutePattern,
    datePattern '-' ++ .exactly 'T' :: minutePattern,
    datePattern '-',
    datePattern '/' ]

/-- At least one digit and at most `limit`, after any white space. -/
def takeNumber (limit : Nat) (s : List Char) : Option (Nat × List Char) :=
  let s := s.dropWhile isWhiteSpace
  let digits := (s.take limit).takeWhile isDigit
  if digits = [] then none else some (natOfDigits digits, s.drop digits.length)

/-- Four digits at most, or a sign and any number of digits right after it. -/
def takeYear (s : List Char) : Option ((Nat × Bool) × List Char) :=
  let signed (negative : Bool) (s : List Char) :=
    let digits := s.takeWhile isDigit
    if digits = [] then none
    else some ((natOfDigits digits, negative), s.drop digits.length)
  match s.dropWhile isWhiteSpace with
  | '-' :: s => signed true s
  | '+' :: s => signed false s
  | s => (takeNumber 4 s).map fun (n, s) => ((n, false), s)

def matchPattern : List PatternItem → Fields → List Char → Option Fields
  | [], f, s => if s = [] then some f else none
  | .year :: items, f, s =>
    (takeYear s).bind fun (y, s) => matchPattern items { f with year := y } s
  | .month :: items, f, s =>
    (takeNumber 2 s).bind fun (n, s) => matchPattern items { f with month := n } s
  | .day :: items, f, s =>
    (takeNumber 2 s).bind fun (n, s) => matchPattern items { f with day := n } s
  | .hour :: items, f, s =>
    (takeNumber 2 s).bind fun (n, s) => matchPattern items { f with hour := n } s
  | .minute :: items, f, s =>
    (takeNumber 2 s).bind fun (n, s) => matchPattern items { f with minute := n } s
  | .second :: items, f, s =>
    (takeNumber 2 s).bind fun (n, s) => matchPattern items { f with second := n } s
  | .gap :: items, f, s => matchPattern items f (s.dropWhile isWhiteSpace)
  | .exactly c :: items, f, s =>
    match s with
    | [] => none
    | x :: s => if x = c then matchPattern items f s else none

/-- `Z` or an offset of hours and minutes, in seconds, up to the end of the text. -/
def offsetOfText? : List Char → Option Int
  | [] => none
  | c :: s =>
    if c = 'Z' || c = 'z' then if s = [] then some 0 else none
    else if c = '+' || c = '-' || c = '\u2212' then do
      let (hours, s) ← takeDigits 2 s
      let s ← takeChar [':'] s
      let (minutes, s) ← takeDigits 2 s
      if s = [] ∧ hours ≤ 23 ∧ minutes ≤ 59 then
        let seconds : Int := 3600 * hours + 60 * minutes
        some (if c = '+' then seconds else -seconds)
      else none
    else none

def zonedOfText? (s : List Char) : Option Instant := do
  let (year, s) ← takeDigits 4 s
  let s ← takeChar ['-'] s
  let (month, s) ← takeDigits 2 s
  let s ← takeChar ['-'] s
  let (day, s) ← takeDigits 2 s
  let s ← takeChar ['T', 't', ' '] s
  let (hour, s) ← takeDigits 2 s
  let s ← takeChar [':'] s
  let (minute, s) ← takeDigits 2 s
  let s ← takeChar [':'] s
  let (second, s) ← takeDigits 2 s
  let (nanos, s) ← takeNanos s
  let offset ← offsetOfText? s
  Fields.toInstant? ⟨(year, false), month, day, hour, minute, second, nanos⟩ offset

def matchesPattern? (s : List Char) (pattern : List PatternItem) : Option Instant :=
  (matchPattern pattern {} s).bind fun f => f.toInstant? 0

def int64? (n : Int) : Option Int64 :=
  if Int64.minValue.toInt ≤ n ∧ n ≤ Int64.maxValue.toInt then some (Int64.ofInt n) else none

def int64OfText? (s : List Char) : Option Int64 := (intOfText? s).bind int64?

def absolute? : List Char → Option Instant
  | '@' :: s => (int64OfText? s).bind fun n => Instant.ofUnixSeconds? n.toInt
  | s => (zonedOfText? s).or (patterns.findSome? (matchesPattern? s))

/-- A unit that a date can be moved by. Weeks and months come in twos and twelves as
well. -/
inductive TimeUnit where
  | seconds (count : Nat)
  | months
deriving DecidableEq

def TimeUnit.ofText? (s : List Char) : Option (Nat × TimeUnit) :=
  let singular := if s.getLast? = some 's' then s.dropLast else s
  match String.ofList singular with
  | "sec" | "second" => some (1, .seconds 1)
  | "min" | "minute" => some (1, .seconds 60)
  | "hour" => some (1, .seconds 3600)
  | "day" => some (1, .seconds 86400)
  | "week" => some (1, .seconds 604800)
  | "fortnight" => some (2, .seconds 604800)
  | "month" => some (1, .months)
  | "year" => some (12, .months)
  | _ => none

/-- The most whole seconds of a duration either way, which is counted in milliseconds. -/
def durationLimit : Int := 9223372036854775

def monthLimit : Nat := 4294967295

def moveSeconds? (now : Instant) (count : Int64) : Option Instant :=
  if -durationLimit ≤ count.toInt ∧ count.toInt ≤ durationLimit then now.addSeconds? count.toInt
  else none

def moveMonths? (now : Instant) (count : Int64) : Option Instant :=
  if count.toInt.natAbs ≤ monthLimit then now.addMonths? count.toInt else none

/-- Move by a number of units, each product in 64 bits. -/
def shift? (now : Instant) (amount : Int64) (unit : List Char) : Option Instant := do
  let (multiple, base) ← TimeUnit.ofText? unit
  let count ← int64? (amount.toInt * multiple)
  match base with
  | .seconds n => (int64? (count.toInt * n)).bind (moveSeconds? now)
  | .months => moveMonths? now count

def startsWithSign : List Char → Bool
  | c :: _ => c = '+' || c = '-'
  | [] => false

def relative? (now : Instant) (s : List Char) : Option Instant :=
  let midnight := now.startOfDay?
  match words s with
  | [word] =>
    match String.ofList word with
    | "now" => some now
    | "today" | "midnight" => midnight
    | "noon" => midnight.bind (·.addSeconds? 43200)
    | "yesterday" => midnight.bind (·.addSeconds? (-86400))
    | "tomorrow" => midnight.bind (·.addSeconds? 86400)
    | _ => none
  | [first, second] =>
    match String.ofList first with
    | "last" => shift? now (-1) second
    | "next" => shift? now 1 second
    | _ =>
      if startsWithSign first then (int64OfText? first).bind (shift? now · second) else none
  | [amount, unit, ago] =>
    if String.ofList ago = "ago" then do
      let forward ← int64OfText? amount
      let back ← int64? (-forward.toInt)
      shift? now back unit
    else none
  | _ => none

def read? (now : Instant) (text : String) : Option Instant :=
  let s := trim text.toList
  if s = [] then none else (absolute? s).or (relative? now (s.map lowerChar))

end Sift.Time

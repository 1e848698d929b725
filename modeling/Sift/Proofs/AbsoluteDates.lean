import Sift.Proofs.DateShapes
import Sift.Proofs.Numerals
import Sift.Proofs.TypeUnions

/-!
# Absolute dates

Documented are a count of seconds, a date and a clock with a zone, and dates in six shapes.
Two more kinds of texts are read: the sign of a zone may be the minus sign of mathematics, and
the patterns behind the shapes take looser texts. Nothing else is an absolute date, and no
text is one in two of these ways.

`IsCount` is a number of 64 bits after the sign for it, and `IsZoned` a date and a clock in
the notation of RFC 3339. `IsDocumented` takes these and the six shapes without a leap second.
-/

namespace Sift.Time

open Sift.Text Sift.Grammar

variable {s after : List Char} {t : Instant}

def IsCount (s : List Char) (t : Instant) : Prop :=
  ∃ text, ∃ count : Int64, s = '@' :: text ∧ IsWhole text count.toInt ∧
    t.seconds = count.toInt ∧ t.nanos = 0

def zonedShapes : List (List Char) :=
  ["0000-00-00T00:00:00", "0000-00-00t00:00:00", "0000-00-00 00:00:00"].map String.toList

inductive IsFraction : List Char → Nat → Prop
  | absent : IsFraction [] 0
  | digits {digits : List Char} (h : IsDigits digits) :
      IsFraction ('.' :: digits) (natOfDigits digits * nanosPerSecond / 10 ^ digits.length)

/-- A zone and the seconds by which its clocks are ahead. -/
inductive IsZone (signs : List Char) : List Char → Int → Prop
  | utc {c : Char} (hc : c = 'Z' ∨ c = 'z') : IsZone signs [c] 0
  | clock {sign : Char} {clock : List Char} {ahead : Int} (hsign : sign ∈ signs)
      (hclock : shape clock = "00:00".toList)
      (hrange : column 0 2 clock ≤ 23 ∧ column 3 2 clock ≤ 59)
      (hahead : ahead = 3600 * column 0 2 clock + 60 * column 3 2 clock) :
      IsZone signs (sign :: clock) (if sign = '+' then ahead else -ahead)

def IsZoned (signs : List Char) (s : List Char) (t : Instant) : Prop :=
  ∃ civil fraction zone nanos offset, s = civil ++ (fraction ++ zone) ∧
    shape civil ∈ zonedShapes ∧ IsFraction fraction nanos ∧ IsZone signs zone offset ∧
      Fields.Denotes { columns civil with nanos := nanos } offset t

/-- A count, a date with a zone, or one in a shape without zone and without leap second. -/
def IsDocumented (s : List Char) (t : Instant) : Prop :=
  IsCount s t ∨ IsZoned ['+', '-'] s t ∨
    (shape s ∈ civilShapes ∧ (columns s).second ≤ 59 ∧ (columns s).Denotes 0 t)

theorem takeChar_eq_some_iff {allowed : List Char} : takeChar allowed s = some after ↔
    ∃ c ∈ allowed, s = c :: after := by
  cases s with
  | nil => simp [takeChar]
  | cons c s => simp [takeChar]

/-- Digits after the ninth of a fraction do not count. -/
theorem nanos_eq {digits : List Char} (h : Run isDigit digits) :
    natOfDigits (digits.take 9) * Nat.pow 10 (9 - (digits.take 9).length) =
      natOfDigits digits * nanosPerSecond / 10 ^ digits.length := by
  have hpow : nanosPerSecond = 10 ^ 9 := by decide
  rw [hpow, Nat.pow_eq]
  by_cases hshort : digits.length ≤ 9
  · have hsplit : 10 ^ 9 = 10 ^ (9 - digits.length) * 10 ^ digits.length := by
      rw [← Nat.pow_add, Nat.sub_add_cancel hshort]
    rw [List.take_of_length_le hshort, hsplit, ← Nat.mul_assoc,
      Nat.mul_div_cancel _ (Nat.pow_pos (by decide))]
  · have hlength : (digits.take 9).length = 9 := by
      rw [List.length_take]
      omega
    have hlast := natOfDigits_lt (s := digits.drop 9) fun c hc => h c (List.mem_of_mem_drop hc)
    have hsplit : 10 ^ digits.length = 10 ^ (digits.drop 9).length * 10 ^ 9 := by
      rw [← Nat.pow_add, List.length_drop]
      congr 1
      omega
    have hvalue := natOfDigits_append (digits.take 9) (digits.drop 9)
    rw [Nat.pow_eq] at hlast
    rw [List.take_append_drop, Nat.pow_eq] at hvalue
    rw [hlength, Nat.sub_self, Nat.pow_zero, Nat.mul_one, hsplit,
      Nat.mul_div_mul_right _ _ (by decide), hvalue, Nat.mul_add_div (Nat.pow_pos (by decide)),
      Nat.div_eq_of_lt hlast, Nat.add_zero]

theorem takeNanos_digits {digits : List Char} (hdigits : Run isDigit digits)
    (hend : Stops isDigit after) : takeNanos ('.' :: (digits ++ after)) =
      if digits = [] then none
      else some (natOfDigits digits * nanosPerSecond / 10 ^ digits.length, after) := by
  rw [takeNanos_fraction hdigits hend, nanos_eq hdigits]

theorem isFraction_of_takeNanos {n : Nat} (h : takeNanos s = some (n, after)) :
    ∃ fraction, s = fraction ++ after ∧ IsFraction fraction n := by
  obtain ⟨point, rest, rfl, hpoint⟩ := exists_marked isPoint s
  cases hpoint with
  | absent hpoint =>
    rw [List.nil_append, takeNanos_of_stops hpoint] at h
    obtain ⟨rfl, rfl⟩ := Prod.mk.inj (Option.some.inj h)
    exact ⟨[], rfl, .absent⟩
  | present hpoint =>
    obtain rfl := of_decide_eq_true hpoint
    obtain ⟨digits, rest, rfl, hdigits, hend⟩ := exists_run_append isDigit rest
    rw [List.singleton_append, takeNanos_digits hdigits hend] at h
    obtain ⟨hsome, heq⟩ := Option.ite_none_left_eq_some.1 h
    obtain ⟨rfl, rfl⟩ := Prod.mk.inj (Option.some.inj heq)
    exact ⟨'.' :: digits, rfl, .digits ⟨hsome, hdigits⟩⟩

theorem takeNanos_of_isFraction {fraction : List Char} {n : Nat} (h : IsFraction fraction n)
    (hpoint : Stops isPoint after) (hdigit : Stops isDigit after) :
    takeNanos (fraction ++ after) = some (n, after) := by
  cases h with
  | absent => exact takeNanos_of_stops hpoint
  | digits h => rw [List.cons_append, takeNanos_digits h.2 hdigit, if_neg h.1]

theorem columns_offset {clock hour minute : List Char} (h : ClockText clock [] hour minute) :
    column 0 2 clock = natOfDigits hour ∧ column 3 2 clock = natOfDigits minute := by
  obtain ⟨rfl, hhour, hminute⟩ := h
  obtain ⟨a, b, rfl⟩ := hhour.two
  obtain ⟨d, e, rfl⟩ := hminute.two
  exact ⟨rfl, rfl⟩

theorem offsetOfText?_eq_some_iff {offset : Int} :
    offsetOfText? s = some offset ↔ IsZone ['+', '-', '\u2212'] s offset := by
  have hshape : "00:00".toList = clockShape [] := by decide
  constructor
  · intro h
    unfold offsetOfText? at h
    split at h
    · cases h
    · next c s =>
      split at h
      · next hutc =>
        obtain ⟨rfl, hzero⟩ := Option.ite_none_right_eq_some.1 h
        obtain rfl := Option.some.inj hzero
        exact .utc (by simpa using hutc)
      · obtain ⟨hsign, h⟩ := Option.ite_none_right_eq_some.1 h
        simp only [Option.bind_eq_bind, Option.bind_eq_some_iff, Prod.exists,
          takeDigits_eq_some_iff, takeChar_eq_some_iff, List.mem_singleton, exists_eq_left,
          Option.ite_none_right_eq_some, Option.some.injEq] at h
        obtain ⟨_, _, ⟨hour, rfl, hhour, rfl⟩, _, rfl, _, _, ⟨minute, rfl, hminute, rfl⟩,
          ⟨rfl, hrange⟩, rfl⟩ := h
        have hclock : ClockText (hour ++ ':' :: (minute ++ [])) [] hour minute :=
          ⟨rfl, hhour, hminute⟩
        obtain ⟨hhours, hminutes⟩ := columns_offset hclock
        refine .clock (by simpa [or_assoc] using hsign) ((shape_clock hclock).trans hshape.symm)
          ?_ ?_
        · rwa [hhours, hminutes]
        · rw [hhours, hminutes]
  · intro h
    cases h with
    | utc hc => rcases hc with rfl | rfl <;> rfl
    | @clock sign clock ahead hsign hclock hrange hahead =>
      obtain ⟨hour, minute, _, htext, hend⟩ := exists_of_shape_clock (hclock.trans hshape)
      obtain rfl := List.map_eq_nil_iff.1 hend
      obtain ⟨hhours, hminutes⟩ := columns_offset htext
      rw [hhours, hminutes] at hrange hahead
      obtain ⟨rfl, hhour, hminute⟩ := htext
      have hcolon : takeChar [':'] (':' :: (minute ++ [])) = some (minute ++ []) := rfl
      have hutc : (sign = 'Z' || sign = 'z') = false := by
        have hnot : ∀ c ∈ ['+', '-', '\u2212'], (c = 'Z' || c = 'z') = false :=
          forall_mem_of_all (by decide)
        exact hnot sign hsign
      have hmark : (sign = '+' || sign = '-' || sign = '\u2212') = true := by
        simpa [or_assoc] using hsign
      simp only [offsetOfText?, hutc, hmark, takeDigits_width hhour, takeDigits_width hminute,
        hcolon, hrange, hahead, if_true, Bool.false_eq_true, if_false, Option.bind_eq_bind,
        Option.bind_some, and_self]

theorem IsZone.stops {zone : List Char} {offset : Int}
    (h : IsZone ['+', '-', '\u2212'] zone offset) : Stops isPoint zone ∧ Stops isDigit zone := by
  have hall : ['Z', 'z', '+', '-', '\u2212'].all (fun c => !isPoint c && !isDigit c) = true := by
    decide
  have hfirst {c : Char} (hc : c ∈ ['Z', 'z', '+', '-', '\u2212']) :
      isPoint c = false ∧ isDigit c = false := by
    simpa using List.all_eq_true.1 hall c hc
  cases h with
  | utc hc => exact hfirst (by rcases hc with rfl | rfl <;> simp)
  | clock hsign => exact hfirst (List.mem_cons_of_mem _ (List.mem_cons_of_mem _ hsign))

theorem zonedOfText?_eq_some_iff :
    zonedOfText? s = some t ↔ IsZoned ['+', '-', '\u2212'] s t := by
  have hshapes : zonedShapes = ['T', 't', ' '].map fun c =>
      dateShape '-' (c :: clockShape (':' :: List.replicate 2 '0')) := by decide
  have hdigit : ∀ c ∈ ['T', 't', ' '], isDigit c = false := forall_mem_of_all (by decide)
  simp only [zonedOfText?, Option.bind_eq_bind, Option.bind_eq_some_iff, Prod.exists,
    takeDigits_eq_some_iff, takeChar_eq_some_iff, offsetOfText?_eq_some_iff,
    Fields.toInstant?_eq_some_iff, IsZoned, hshapes, List.mem_map, List.mem_singleton,
    exists_eq_left]
  constructor
  · rintro ⟨_, _, ⟨year, rfl, hyear, rfl⟩, _, rfl, _, _, ⟨month, rfl, hmonth, rfl⟩, _, rfl,
      _, _, ⟨day, rfl, hday, rfl⟩, _, ⟨c, hc, rfl⟩, _, _, ⟨hour, rfl, hhour, rfl⟩, _, rfl,
      _, _, ⟨minute, rfl, hminute, rfl⟩, _, rfl, _, _, ⟨second, rfl, hsecond, rfl⟩,
      nanos, zone, hnanos, offset, hzone, hdenotes⟩
    obtain ⟨fraction, rfl, hfraction⟩ := isFraction_of_takeNanos hnanos
    have hdate : DateText '-' (year ++ '-' :: (month ++ '-' :: (day ++
        c :: (hour ++ ':' :: (minute ++ ':' :: second))))) _ year month day :=
      ⟨rfl, hyear, hmonth, hday⟩
    have hclock : ClockText (hour ++ ':' :: (minute ++ ':' :: second)) _ hour minute :=
      ⟨rfl, hhour, hminute⟩
    refine ⟨year ++ '-' :: (month ++ '-' :: (day ++ c :: (hour ++ ':' :: (minute ++ ':' ::
      second)))), fraction, zone, nanos, offset, ?_, ⟨c, hc, ?_⟩, hfraction, hzone, ?_⟩
    · simp only [List.append_assoc, List.cons_append]
    · rw [shape_date (by decide) hdate, shape_cons (hdigit c hc), shape_clock hclock,
        shape_cons (by decide), shape_digits hsecond]
    · rw [columns_seconds hdate hclock hsecond]
      exact hdenotes
  · rintro ⟨civil, fraction, zone, nanos, offset, rfl, ⟨c, hc, hshape⟩, hfraction, hzone, hdenotes⟩
    obtain ⟨year, month, day, clock, hour, minute, second, hdate, hclock, hsecond⟩ :=
      exists_of_shape_seconds (by decide) (hdigit c hc) hshape.symm
    rw [columns_seconds hdate hclock hsecond] at hdenotes
    obtain ⟨rfl, hyear, hmonth, hday⟩ := hdate
    obtain ⟨rfl, hhour, hminute⟩ := hclock
    have hnanos := takeNanos_of_isFraction hfraction hzone.stops.1 hzone.stops.2
    simp only [List.append_assoc, List.cons_append]
    exact ⟨_, _, ⟨year, rfl, hyear, rfl⟩, _, rfl, _, _, ⟨month, rfl, hmonth, rfl⟩, _, rfl,
      _, _, ⟨day, rfl, hday, rfl⟩, _, ⟨c, hc, rfl⟩, _, _, ⟨hour, rfl, hhour, rfl⟩, _, rfl,
      _, _, ⟨minute, rfl, hminute, rfl⟩, _, rfl, _, _, ⟨second, rfl, hsecond, rfl⟩,
      nanos, zone, hnanos, offset, hzone, hdenotes⟩

theorem IsLoose.exists_count (h : IsLoose s t) :
    ∃ p ∈ patterns, ∀ c, isMark c = true →
      s.count c = (p.filterMap PatternItem.mark?).count c := by
  obtain ⟨p, hp, f, hwritten, -⟩ := h
  exact ⟨p, hp, fun c => hwritten.count_eq⟩

theorem IsLoose.count_colon_le (h : IsLoose s t) : s.count ':' ≤ 2 := by
  have hall : ∀ p ∈ patterns, (p.filterMap PatternItem.mark?).count ':' ≤ 2 := by decide
  obtain ⟨p, hp, hcount⟩ := h.exists_count
  rw [hcount ':' (by decide)]
  exact hall p hp

theorem IsLoose.not_mem (h : IsLoose s t) {c : Char} (hc : c ∈ ['@', 'Z', 'z', '\u2212']) :
    c ∉ s := by
  have hmark : ∀ c ∈ ['@', 'Z', 'z', '\u2212'], isMark c = true := forall_mem_of_all (by decide)
  have hall : ∀ c ∈ ['@', 'Z', 'z', '\u2212'],
      ∀ p ∈ patterns, (p.filterMap PatternItem.mark?).count c = 0 := forall_mem_of_all (by decide)
  obtain ⟨p, hp, hcount⟩ := h.exists_count
  rw [← List.count_eq_zero, hcount c (hmark c hc), hall c hc p hp]

/-- The marks in the part of a zoned date that has a shape. -/
theorem count_of_zonedShape {civil : List Char} (h : shape civil ∈ zonedShapes) :
    civil.count ':' = 2 ∧ civil.count '@' = 0 ∧ civil.count '\u2212' = 0 := by
  have hall : ∀ x ∈ zonedShapes, x.count ':' = 2 ∧ x.count '@' = 0 ∧ x.count '\u2212' = 0 := by
    decide
  have hcounts := hall _ h
  rwa [count_shape (by decide), count_shape (by decide), count_shape (by decide)] at hcounts

theorem count_of_clock {clock : List Char} (h : shape clock = "00:00".toList) :
    clock.count ':' = 1 ∧ clock.count '\u2212' = 0 := by
  rw [← count_shape (by decide), ← count_shape (s := clock) (by decide), h]
  decide

variable {signs : List Char} {t' : Instant}

/-- A date with a zone has a third colon or the letter for the zone. -/
theorem IsZoned.not_isLoose (h : IsZoned signs s t) : ¬ IsLoose s t' := by
  intro hloose
  obtain ⟨civil, fraction, zone, nanos, offset, rfl, hshape, -, hzone, -⟩ := h
  have hcivil := (count_of_zonedShape hshape).1
  cases hzone with
  | @utc c hc =>
    have hletter : c ∈ ['@', 'Z', 'z', '\u2212'] := by
      rcases hc with rfl | rfl
      · exact List.mem_cons_of_mem _ List.mem_cons_self
      · exact List.mem_cons_of_mem _ (List.mem_cons_of_mem _ List.mem_cons_self)
    exact hloose.not_mem hletter (by simp)
  | clock hsign hclock =>
    have hcolons := hloose.count_colon_le
    have hone := (count_of_clock hclock).1
    simp only [List.count_append, List.count_cons] at hcolons
    omega

/-- The sign of a count begins no date. -/
theorem IsZoned.head?_ne (h : IsZoned signs s t) : s.head? ≠ some '@' := by
  intro hhead
  obtain ⟨civil, fraction, zone, nanos, offset, rfl, hshape, -, -, -⟩ := h
  cases civil with
  | nil => exact absurd hshape (by decide)
  | cons c civil =>
    obtain rfl := Option.some.inj hhead
    have hnone := (count_of_zonedShape hshape).2.1
    rw [List.count_cons_self] at hnone
    exact Nat.succ_ne_zero _ hnone

/-- Only the signs that occur in a text have to be allowed. -/
theorem IsZoned.of_mem {signs' : List Char} (hsub : ∀ c ∈ signs, c ∈ s → c ∈ signs')
    (h : IsZoned signs s t) : IsZoned signs' s t := by
  obtain ⟨civil, fraction, zone, nanos, offset, rfl, hshape, hfraction, hzone, hdenotes⟩ := h
  refine ⟨civil, fraction, zone, nanos, offset, rfl, hshape, hfraction, ?_, hdenotes⟩
  cases hzone with
  | utc hc => exact .utc hc
  | clock hsign hclock hrange hahead =>
    exact .clock (hsub _ hsign (by simp)) hclock hrange hahead

theorem IsZoned.of_not_mem (h : IsZoned ['+', '-', '\u2212'] s t) (hminus : '\u2212' ∉ s) :
    IsZoned ['+', '-'] s t := by
  refine h.of_mem fun c hc hmem => ?_
  have hne : c ≠ '\u2212' := ne_of_mem_of_not_mem hmem hminus
  simpa [hne] using hc

theorem IsZoned.not_mem (h : IsZoned ['+', '-'] s t) : '\u2212' ∉ s := by
  obtain ⟨civil, fraction, zone, nanos, offset, rfl, hshape, hfraction, hzone, -⟩ := h
  have hcivil := List.count_eq_zero.1 (count_of_zonedShape hshape).2.2
  have hfraction' : '\u2212' ∉ fraction := by
    cases hfraction with
    | absent => exact List.not_mem_nil
    | digits hdigits =>
      have hdigit := not_mem_of_run hdigits.2 (show isDigit '\u2212' = false by decide)
      exact List.not_mem_cons_of_ne_of_not_mem (by decide) hdigit
  have hzone' : '\u2212' ∉ zone := by
    cases hzone with
    | utc hc => rcases hc with rfl | rfl <;> decide
    | clock hsign hclock =>
      have hclock' := List.count_eq_zero.1 (count_of_clock hclock).2
      refine List.not_mem_cons_of_ne_of_not_mem ?_ hclock'
      rintro rfl
      exact absurd hsign (by decide)
  simp only [List.mem_append, hcivil, hfraction', hzone', or_self, not_false_eq_true]

theorem IsCount.not_mem (h : IsCount s t) : '\u2212' ∉ s := by
  obtain ⟨text, count, rfl, ⟨sign, digits, rfl, hsign, hdigits, -⟩, -⟩ := h
  have hrun := run_append hsign.run (IsDigits.run hdigits.2)
  exact List.not_mem_cons_of_ne_of_not_mem (by decide)
    (not_mem_of_run hrun (show isNumberChar '\u2212' = false by decide))

theorem absolute?_count (text : List Char) (t : Instant) :
    absolute? ('@' :: text) = some t ↔ IsCount ('@' :: text) t := by
  simp only [absolute?, int64OfText?, Option.bind_eq_some_iff, intOfText?_eq_some_iff,
    int64?_eq_some_iff, Instant.ofUnixSeconds?, Instant.ofParts?_eq_some_iff]
  constructor
  · rintro ⟨count, ⟨n, hn, rfl⟩, hseconds, hnanos⟩
    exact ⟨text, count, rfl, hn, hseconds, hnanos⟩
  · rintro ⟨_, count, htext, hn, hseconds, hnanos⟩
    obtain rfl := (List.cons.inj htext).2
    exact ⟨count, ⟨_, hn, rfl⟩, hseconds, hnanos⟩

theorem absolute?_of_head?_ne (h : s.head? ≠ some '@') :
    absolute? s = (zonedOfText? s).or (patterns.findSome? (matchesPattern? s)) := by
  unfold absolute?
  split
  · exact absurd rfl h
  · rfl

theorem absolute?_eq_some_iff :
    absolute? s = some t ↔ IsCount s t ∨ IsZoned ['+', '-', '\u2212'] s t ∨ IsLoose s t := by
  by_cases hhead : s.head? = some '@'
  · obtain ⟨text, rfl⟩ := List.head?_eq_some_iff.1 hhead
    rw [absolute?_count, or_iff_left]
    rintro (hzoned | hloose)
    · exact hzoned.head?_ne rfl
    · exact hloose.not_mem List.mem_cons_self List.mem_cons_self
  · have hcount : ¬ IsCount s t := by
      rintro ⟨text, count, rfl, -⟩
      exact hhead rfl
    rw [absolute?_of_head?_ne hhead, Option.or_eq_some_iff, findSome?_patterns_iff,
      zonedOfText?_eq_some_iff, or_iff_right hcount]
    refine or_congr_right ⟨And.right, fun hloose => ⟨?_, hloose⟩⟩
    rw [Option.eq_none_iff_forall_ne_some]
    intro t' hzoned
    exact (zonedOfText?_eq_some_iff.1 hzoned).not_isLoose hloose

theorem IsDocumented.absolute? (h : IsDocumented s t) : absolute? s = some t := by
  rw [absolute?_eq_some_iff]
  obtain hcount | hzoned | ⟨hshape, -, hdenotes⟩ := h
  · exact .inl hcount
  · exact .inr (.inl (hzoned.of_mem fun c hc _ => List.mem_append_left ['\u2212'] hc))
  · obtain ⟨p, hp, hwritten⟩ := exists_written_of_shape hshape
    exact .inr (.inr ⟨p, hp, _, hwritten, hdenotes⟩)

/-- A text in a shape denotes what stands in its columns, if anything. -/
theorem IsLoose.denotes_columns (h : IsLoose s t) (hshape : shape s ∈ civilShapes) :
    (columns s).Denotes 0 t := by
  obtain ⟨p, hp, f, hwritten, hdenotes⟩ := h
  obtain ⟨q, hq, hwritten'⟩ := exists_written_of_shape hshape
  obtain rfl := eq_of_written hp hq hwritten hwritten'
  have hread := matchPattern_of_written hwritten
  rw [matchPattern_of_written hwritten'] at hread
  exact (Option.some.inj hread) ▸ hdenotes

theorem isLeapSecond_eq_false_iff (h : (columns s).Denotes 0 t) :
    t.isLeapSecond = false ↔ (columns s).second ≤ 59 := by
  obtain ⟨d, -, ⟨-, -, hsecond⟩, -, hnanos⟩ := h
  have hnone : (columns s).nanos = 0 := rfl
  have hsome : nanosPerSecond = 1000000000 := rfl
  rw [Instant.isLeapSecond, decide_eq_false_iff_not, hnanos, hnone]
  by_cases hleap : (columns s).second = 60
  · rw [if_pos hleap]
    omega
  · rw [if_neg hleap]
    omega

/-- An absolute date is documented unless its zone has the minus sign of mathematics, or a
pattern takes it that is not in one of the shapes or is a leap second. -/
theorem isDocumented_iff : IsDocumented s t ↔ absolute? s = some t ∧ '\u2212' ∉ s ∧
    (IsLoose s t → shape s ∈ civilShapes ∧ t.isLeapSecond = false) := by
  constructor
  · intro h
    refine ⟨h.absolute?, ?_⟩
    obtain hcount | hzoned | ⟨hshape, hsecond, hdenotes⟩ := h
    · refine ⟨hcount.not_mem, fun hloose => ?_⟩
      obtain ⟨text, count, rfl, -⟩ := hcount
      exact absurd List.mem_cons_self (hloose.not_mem List.mem_cons_self)
    · exact ⟨hzoned.not_mem, fun hloose => absurd hloose hzoned.not_isLoose⟩
    · have hnone : ∀ x ∈ civilShapes, x.count '\u2212' = 0 := by decide
      refine ⟨?_, fun _ => ⟨hshape, (isLeapSecond_eq_false_iff hdenotes).2 hsecond⟩⟩
      rw [← List.count_eq_zero, ← count_shape (by decide)]
      exact hnone _ hshape
  · rintro ⟨habsolute, hminus, hloose⟩
    obtain hcount | hzoned | hpattern := absolute?_eq_some_iff.1 habsolute
    · exact .inl hcount
    · exact .inr (.inl (hzoned.of_not_mem hminus))
    · obtain ⟨hshape, hleap⟩ := hloose hpattern
      have hdenotes := hpattern.denotes_columns hshape
      exact .inr (.inr ⟨hshape, (isLeapSecond_eq_false_iff hdenotes).1 hleap, hdenotes⟩)

variable {now : Instant} {text : String}

theorem read?_eq_some_iff : read? now text = some t ↔ absolute? (trim text.toList) = some t ∨
    (absolute? (trim text.toList) = none ∧
      relative? now ((trim text.toList).map lowerChar) = some t) := by
  unfold read?
  by_cases hnone : trim text.toList = []
  · have hread : absolute? [] = none ∧ relative? now [] = none := ⟨by decide, rfl⟩
    simp [hnone, hread]
  · simp only [if_neg hnone, Option.or_eq_some_iff]

theorem validate_date_or_string {field : String} :
    (Constraint.mk none (some [.date, .string])).validate field now (.string text) =
      .ok (.date t) ↔ read? now text = some t := by
  have hallows : (Constraint.mk none (some [.date, .string])).allows (.string text) = true := rfl
  have hdate : ValueType.date.accept? now (.string text) = (read? now text).map .date := rfl
  rw [Constraint.validate_eq_ok_iff, and_iff_right hallows]
  change [ValueType.date, .string].findSome? (·.accept? now (.string text)) = some (.date t) ↔ _
  rw [List.findSome?_cons, hdate]
  cases read? now text with
  | none =>
    -- the text itself is what the second type leaves
    change some (Literal.string text) = some (.date t) ↔ _
    simp
  | some t' => simp

/-- Absolute dates are exactly the counts, the dates with a zone and the texts of the patterns.
They are documented apart from zones with the minus sign of mathematics, texts of patterns that
have another shape, and leap seconds in the patterns. A field that takes dates and texts turns
a text into a date exactly if it is an absolute date, or none but a relative one. -/
theorem absolute_dates (field : String) (now : Instant) (text : String) (t : Instant) :
    let s := trim text.toList
    (absolute? s = some t ↔ IsCount s t ∨ IsZoned ['+', '-', '\u2212'] s t ∨ IsLoose s t) ∧
      (IsDocumented s t ↔ absolute? s = some t ∧ '\u2212' ∉ s ∧
        (IsLoose s t → shape s ∈ civilShapes ∧ t.isLeapSecond = false)) ∧
      ((Constraint.mk none (some [.date, .string])).validate field now (.string text) =
          .ok (.date t) ↔
        absolute? s = some t ∨
          (absolute? s = none ∧ relative? now (s.map lowerChar) = some t)) :=
  ⟨absolute?_eq_some_iff, isDocumented_iff, validate_date_or_string.trans read?_eq_some_iff⟩

/-- A year of two digits with no gap before the clock is a year of the first century, and no
documented date. -/
theorem absolute_dates_firstCentury :
    let now : Instant := ⟨1710498600, 0, by decide, by decide, .inl (by decide)⟩
    let t : Instant := ⟨-61532581500, 0, by decide, by decide, .inl (by decide)⟩
    (Constraint.mk none (some [.date, .string])).validate "from" now (.string "20-02-1008:15") =
        .ok (.date t) ∧
      IsLoose (trim "20-02-1008:15".toList) t ∧ ¬ IsDocumented (trim "20-02-1008:15".toList) t := by
  intro now t
  obtain ⟨-, hdocumented, hfield⟩ := absolute_dates "from" now "20-02-1008:15" t
  have hread : absolute? (trim "20-02-1008:15".toList) = some t := by decide +kernel
  have hloose : IsLoose (trim "20-02-1008:15".toList) t :=
    findSome?_patterns_iff.1 (by decide +kernel)
  have hshape : shape (trim "20-02-1008:15".toList) ∉ civilShapes := by decide +kernel
  exact ⟨hfield.2 (.inl hread), hloose, fun h => hshape ((hdocumented.1 h).2.2 hloose).1⟩

end Sift.Time

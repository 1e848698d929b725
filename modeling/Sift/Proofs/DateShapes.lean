import Sift.Proofs.DatePatterns
import Sift.Proofs.Numerals

/-!
# Dates with a fixed number of digits in each place

The shape of a text tells where its digits are. A text in the shape of a date, alone or with a
clock, has its numbers in fixed columns, and the pattern for that shape reads them there.

`columns` are the fields of a text that has a shape. `DateText` and `ClockText` have the
digits of a date, and of hours and minutes, at the front of a text.
-/

namespace Sift.Time

open Sift.Text Sift.Grammar

variable {s after : List Char}

/-- The text with a zero in place of every digit. -/
def shape (s : List Char) : List Char := s.map fun c => if isDigit c then '0' else c

def civilShapes : List (List Char) :=
  ["0000-00-00", "0000/00/00", "0000-00-00 00:00", "0000-00-00 00:00:00", "0000-00-00T00:00",
    "0000-00-00T00:00:00"].map String.toList

/-- The number that stands in some of the columns of a text; 0 behind its end. -/
def column (start width : Nat) (s : List Char) : Nat := natOfDigits ((s.drop start).take width)

def columns (s : List Char) : Fields where
  year := (column 0 4 s, false)
  month := column 5 2 s
  day := column 8 2 s
  hour := column 11 2 s
  minute := column 14 2 s
  second := column 17 2 s

theorem shape_append (s t : List Char) : shape (s ++ t) = shape s ++ shape t := List.map_append

theorem shape_cons {c : Char} (hc : isDigit c = false) (s : List Char) :
    shape (c :: s) = c :: shape s := by
  simp [shape, hc]

theorem shape_digits {n : Nat} {digits : List Char} (h : Width n digits) :
    shape digits = List.replicate n '0' := by
  rw [List.eq_replicate_iff, shape, List.length_map]
  refine ⟨h.1, fun c hc => ?_⟩
  obtain ⟨d, hd, rfl⟩ := List.mem_map.1 hc
  rw [if_pos (h.2 d hd)]

theorem exists_of_shape_zeros {n : Nat} {rest : List Char}
    (h : shape s = List.replicate n '0' ++ rest) :
    ∃ digits after, s = digits ++ after ∧ Width n digits ∧ shape after = rest := by
  obtain ⟨digits, after, rfl, hzeros, hrest⟩ := List.map_eq_append_iff.1 h
  obtain ⟨hlength, hall⟩ := List.eq_replicate_iff.1 hzeros
  refine ⟨digits, after, rfl, ⟨by rwa [List.length_map] at hlength, fun c hc => ?_⟩, hrest⟩
  have hc := hall _ (List.mem_map_of_mem hc)
  by_cases hdigit : isDigit c = true
  · exact hdigit
  · rw [if_neg hdigit] at hc
    exact hc ▸ rfl

theorem width_of_shape {n : Nat} (h : shape s = List.replicate n '0') : Width n s := by
  obtain ⟨digits, after, rfl, hdigits, hafter⟩ :=
    exists_of_shape_zeros (h.trans (List.append_nil _).symm)
  rw [List.map_eq_nil_iff.1 hafter, List.append_nil]
  exact hdigits

theorem exists_of_shape_cons {c : Char} (hc : isDigit c = false) {rest : List Char}
    (h : shape s = c :: rest) : ∃ after, s = c :: after ∧ shape after = rest := by
  obtain ⟨d, after, rfl, hd, hrest⟩ := List.map_eq_cons_iff.1 h
  by_cases hdigit : isDigit d = true
  · rw [if_pos hdigit] at hd
    exact absurd (hd ▸ hc) (by decide)
  · rw [if_neg hdigit] at hd
    exact ⟨after, by rw [hd], hrest⟩

theorem count_shape {c : Char} (hc : isDigit c = false) (s : List Char) :
    (shape s).count c = s.count c := by
  induction s with
  | nil => rfl
  | cons d s ih =>
    by_cases hd : isDigit d = true
    · have hne : d ≠ c := by
        rintro rfl
        exact Bool.false_ne_true (hc ▸ hd)
      have hzero : '0' ≠ c := by
        rintro rfl
        exact absurd hc (by decide)
      rw [shape, List.map_cons, if_pos hd, List.count_cons_of_ne hzero, List.count_cons_of_ne hne]
      exact ih
    · rw [shape_cons (Bool.eq_false_iff.2 hd), List.count_cons, List.count_cons, ih]

def dateShape (separator : Char) (rest : List Char) : List Char :=
  List.replicate 4 '0' ++ separator :: (List.replicate 2 '0' ++
    separator :: (List.replicate 2 '0' ++ rest))

def clockShape (rest : List Char) : List Char :=
  List.replicate 2 '0' ++ ':' :: (List.replicate 2 '0' ++ rest)

structure DateText (separator : Char) (s after year month day : List Char) : Prop where
  text : s = year ++ separator :: (month ++ separator :: (day ++ after))
  year : Width 4 year
  month : Width 2 month
  day : Width 2 day

structure ClockText (s after hour minute : List Char) : Prop where
  text : s = hour ++ ':' :: (minute ++ after)
  hour : Width 2 hour
  minute : Width 2 minute

variable {year month day hour minute second : List Char} {separator : Char}

theorem shape_date (hseparator : isDigit separator = false)
    (h : DateText separator s after year month day) :
    shape s = dateShape separator (shape after) := by
  obtain ⟨rfl, hyear, hmonth, hday⟩ := h
  simp only [shape_append, shape_cons hseparator, shape_digits hyear, shape_digits hmonth,
    shape_digits hday, dateShape]

theorem exists_of_shape_date (hseparator : isDigit separator = false) {rest : List Char}
    (h : shape s = dateShape separator rest) :
    ∃ year month day after, DateText separator s after year month day ∧ shape after = rest := by
  obtain ⟨year, _, hs, hyear, hafterYear⟩ := exists_of_shape_zeros h
  obtain ⟨_, rfl, hmonths⟩ := exists_of_shape_cons hseparator hafterYear
  obtain ⟨month, _, rfl, hmonth, hafterMonth⟩ := exists_of_shape_zeros hmonths
  obtain ⟨_, rfl, hdays⟩ := exists_of_shape_cons hseparator hafterMonth
  obtain ⟨day, after, rfl, hday, hrest⟩ := exists_of_shape_zeros hdays
  exact ⟨year, month, day, after, ⟨hs, hyear, hmonth, hday⟩, hrest⟩

theorem shape_clock (h : ClockText s after hour minute) :
    shape s = clockShape (shape after) := by
  obtain ⟨rfl, hhour, hminute⟩ := h
  have hcolon : isDigit ':' = false := by decide
  simp only [shape_append, shape_cons hcolon, shape_digits hhour, shape_digits hminute, clockShape]

theorem exists_of_shape_clock {rest : List Char} (h : shape s = clockShape rest) :
    ∃ hour minute after, ClockText s after hour minute ∧ shape after = rest := by
  obtain ⟨hour, _, hs, hhour, hafterHour⟩ := exists_of_shape_zeros h
  obtain ⟨_, rfl, hminutes⟩ := exists_of_shape_cons (by decide) hafterHour
  obtain ⟨minute, after, rfl, hminute, hrest⟩ := exists_of_shape_zeros hminutes
  exact ⟨hour, minute, after, ⟨hs, hhour, hminute⟩, hrest⟩

/-- The digits of a text in the shape of a date and a clock with seconds. -/
theorem exists_of_shape_seconds {c : Char} (hseparator : isDigit separator = false)
    (hc : isDigit c = false)
    (h : shape s = dateShape separator (c :: clockShape (':' :: List.replicate 2 '0'))) :
    ∃ year month day clock hour minute second,
      DateText separator s (c :: clock) year month day ∧
        ClockText clock (':' :: second) hour minute ∧ Width 2 second := by
  obtain ⟨year, month, day, _, hdate, hafter⟩ := exists_of_shape_date hseparator h
  obtain ⟨clock, rfl, hclocks⟩ := exists_of_shape_cons hc hafter
  obtain ⟨hour, minute, _, hclock, hseconds⟩ := exists_of_shape_clock hclocks
  obtain ⟨second, rfl, hsecond⟩ := exists_of_shape_cons (by decide) hseconds
  exact ⟨year, month, day, clock, hour, minute, second, hdate, hclock, width_of_shape hsecond⟩

theorem columns_date (h : DateText separator s after year month day) :
    columns s = ⟨(natOfDigits year, false), natOfDigits month, natOfDigits day,
      column 1 2 after, column 4 2 after, column 7 2 after, 0⟩ := by
  obtain ⟨rfl, hyear, hmonth, hday⟩ := h
  obtain ⟨a, b, c, d, rfl⟩ := hyear.four
  obtain ⟨e, f, rfl⟩ := hmonth.two
  obtain ⟨g, h, rfl⟩ := hday.two
  rfl

theorem column_clock (h : ClockText s after hour minute) (c : Char) :
    column 1 2 (c :: s) = natOfDigits hour ∧ column 4 2 (c :: s) = natOfDigits minute ∧
      column 7 2 (c :: s) = column 1 2 after := by
  obtain ⟨rfl, hhour, hminute⟩ := h
  obtain ⟨a, b, rfl⟩ := hhour.two
  obtain ⟨d, e, rfl⟩ := hminute.two
  exact ⟨rfl, rfl, rfl⟩

theorem column_second (h : Width 2 second) (c : Char) :
    column 1 2 (c :: second) = natOfDigits second := by
  obtain ⟨a, b, rfl⟩ := h.two
  rfl

theorem columns_seconds {c : Char} {clock : List Char}
    (hdate : DateText separator s (c :: clock) year month day)
    (hclock : ClockText clock (':' :: second) hour minute) (hsecond : Width 2 second) :
    columns s = ⟨(natOfDigits year, false), natOfDigits month, natOfDigits day,
      natOfDigits hour, natOfDigits minute, natOfDigits second, 0⟩ := by
  obtain ⟨hhours, hminutes, hseconds⟩ := column_clock hclock c
  rw [columns_date hdate, hhours, hminutes, hseconds, column_second hsecond]

theorem columns_minutes {c : Char} {clock : List Char}
    (hdate : DateText separator s (c :: clock) year month day)
    (hclock : ClockText clock [] hour minute) :
    columns s = ⟨(natOfDigits year, false), natOfDigits month, natOfDigits day,
      natOfDigits hour, natOfDigits minute, 0, 0⟩ := by
  obtain ⟨hhours, hminutes, hseconds⟩ := column_clock hclock c
  rw [columns_date hdate, hhours, hminutes, hseconds]
  rfl

theorem LooseNumber.of_width {n : Nat} {digits after : List Char} (h : Width (n + 1) digits) :
    LooseNumber (n + 1) after digits (natOfDigits digits) :=
  .mk (run_nil _) ⟨h.ne_nil, h.2⟩ (Nat.le_of_eq h.1) fun hshort => absurd h.1 (Nat.ne_of_lt hshort)

theorem written_date (h : DateText separator s after year month day) {items : List PatternItem}
    {g : Fields} (hrest : Written items
      { year := (natOfDigits year, false), month := natOfDigits month, day := natOfDigits day }
      after g) : Written (datePattern separator ++ items) {} s g := by
  obtain ⟨rfl, hyear, hmonth, hday⟩ := h
  exact .year (.plain (.of_width hyear)) (.exactly (.number rfl (.of_width hmonth)
    (.exactly (.number rfl (.of_width hday) hrest))))

theorem written_clock (h : ClockText s after hour minute) {items : List PatternItem}
    {f g : Fields} (hrest : Written items
      { f with hour := natOfDigits hour, minute := natOfDigits minute } after g) :
    Written (minutePattern ++ items) f s g := by
  obtain ⟨rfl, hhour, hminute⟩ := h
  exact .number rfl (.of_width hhour) (.exactly (.number rfl (.of_width hminute) hrest))

def Separates (c : Char) (item : PatternItem) : Prop :=
  (c = ' ' ∧ item = .gap) ∨ (c = 'T' ∧ item = .exactly 'T')

theorem Separates.isDigit {c : Char} {item : PatternItem} (h : Separates c item) :
    isDigit c = false := by
  rcases h with ⟨rfl, -⟩ | ⟨rfl, -⟩ <;> decide

theorem written_separated {c : Char} {item : PatternItem} (h : Separates c item)
    {items : List PatternItem} {f g : Fields} (hclock : ClockText s after hour minute)
    (hrest : Written items f s g) : Written (item :: items) f (c :: s) g := by
  rcases h with ⟨rfl, rfl⟩ | ⟨rfl, rfl⟩
  · have hspace : Run isWhiteSpace [' '] := List.forall_mem_singleton.2 rfl
    obtain ⟨rfl, hhour, -⟩ := hclock
    exact .gap hspace
      (stops_append hhour.ne_nil (stops_of_run hhour.2 isWhiteSpace_of_isDigit)) hrest
  · exact .exactly hrest

theorem written_minutes {c : Char} {item : PatternItem} (hc : Separates c item)
    (h : shape s = dateShape '-' (c :: clockShape [])) :
    Written (datePattern '-' ++ item :: minutePattern) {} s (columns s) := by
  obtain ⟨year, month, day, _, hdate, hafter⟩ := exists_of_shape_date (by decide) h
  obtain ⟨clock, rfl, hclocks⟩ := exists_of_shape_cons hc.isDigit hafter
  obtain ⟨hour, minute, _, hclock, hend⟩ := exists_of_shape_clock hclocks
  obtain rfl := List.map_eq_nil_iff.1 hend
  rw [columns_minutes hdate hclock]
  exact written_date hdate (written_separated hc hclock (written_clock hclock .nil))

theorem written_seconds {c : Char} {item : PatternItem} (hc : Separates c item)
    (h : shape s = dateShape '-' (c :: clockShape (':' :: List.replicate 2 '0'))) :
    Written (datePattern '-' ++ item :: secondPattern) {} s (columns s) := by
  obtain ⟨year, month, day, clock, hour, minute, second, hdate, hclock, hsecond⟩ :=
    exists_of_shape_seconds (by decide) hc.isDigit h
  rw [columns_seconds hdate hclock hsecond]
  have hlast : Written [.second]
      { year := (natOfDigits year, false), month := natOfDigits month, day := natOfDigits day,
        hour := natOfDigits hour, minute := natOfDigits minute } (second ++ [])
      ⟨(natOfDigits year, false), natOfDigits month, natOfDigits day, natOfDigits hour,
        natOfDigits minute, natOfDigits second, 0⟩ := .number rfl (.of_width hsecond) .nil
  rw [List.append_nil] at hlast
  exact written_date hdate (written_separated hc hclock (written_clock hclock (.exactly hlast)))

/-- A text in one of the shapes is written in a pattern, which reads the fields by columns. -/
theorem exists_written_of_shape (h : shape s ∈ civilShapes) :
    ∃ p ∈ patterns, Written p {} s (columns s) := by
  have hshapes : civilShapes =
      [ dateShape '-' [], dateShape '/' [], dateShape '-' (' ' :: clockShape []),
        dateShape '-' (' ' :: clockShape (':' :: List.replicate 2 '0')),
        dateShape '-' ('T' :: clockShape []),
        dateShape '-' ('T' :: clockShape (':' :: List.replicate 2 '0')) ] := by decide
  have hday {separator : Char} (hseparator : isDigit separator = false)
      (h : shape s = dateShape separator []) :
      Written (datePattern separator) {} s (columns s) := by
    obtain ⟨year, month, day, after, hdate, hafter⟩ := exists_of_shape_date hseparator h
    obtain rfl := List.map_eq_nil_iff.1 hafter
    rw [columns_date hdate]
    exact written_date hdate .nil
  have hspace : Separates ' ' .gap := .inl ⟨rfl, rfl⟩
  have hletter : Separates 'T' (.exactly 'T') := .inr ⟨rfl, rfl⟩
  simp only [hshapes, List.mem_cons, List.not_mem_nil, or_false] at h
  rcases h with h | h | h | h | h | h
  · exact ⟨_, by simp [patterns], hday (by decide) h⟩
  · exact ⟨_, by simp [patterns], hday (by decide) h⟩
  · exact ⟨_, by simp [patterns], written_minutes hspace h⟩
  · exact ⟨_, by simp [patterns], written_seconds hspace h⟩
  · exact ⟨_, by simp [patterns], written_minutes hletter h⟩
  · exact ⟨_, by simp [patterns], written_seconds hletter h⟩

end Sift.Time

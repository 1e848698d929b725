import Sift.Proofs.AbsoluteDates
import Sift.Proofs.RelativeDates

/-!
# Printed dates are read back

An instant of the years 0 to 9999 is printed as a date and a clock with the zone of UTC, and a
text of that kind denotes one instant. So nothing is lost between printing and reading but the
fraction of the second where it is not printed. A text without the fraction is the text of the
instant without it, so there is one argument for both.

`fields` are the numbers that are printed for an instant, and `zonedText` is a date and a
clock with all their digits.
-/

namespace Sift.Time

open Sift.Text Sift.Grammar

/-- The years that are printed without a sign. -/
def FourDigitYear (t : Instant) : Prop := 0 ≤ yearOfDay t.day ∧ yearOfDay t.day ≤ 9999

instance (t : Instant) : Decidable (FourDigitYear t) := inferInstanceAs (Decidable (_ ∧ _))

namespace Instant

variable {t : Instant}

/-- The nanoseconds are a leap second, if it is one, and a fraction. -/
theorem nanos_split (t : Instant) : t.nanos % nanosPerSecond < nanosPerSecond ∧
    t.nanos = t.nanos % nanosPerSecond + if t.isLeapSecond then nanosPerSecond else 0 := by
  have hvalid := t.nanos_valid
  cases hleap : t.isLeapSecond with
  | false =>
    have hlt := nanos_lt hleap
    rw [Nat.mod_eq_of_lt hlt]
    exact ⟨hlt, rfl⟩
  | true =>
    have hle : nanosPerSecond ≤ t.nanos := of_decide_eq_true hleap
    rw [if_pos rfl]
    unfold nanosPerSecond at *
    omega

/-- Leap seconds come at the end of a minute. -/
theorem second_of_isLeapSecond (h : t.isLeapSecond = true) : t.secondOfDay % 60 = 59 := by
  have hle : nanosPerSecond ≤ t.nanos := of_decide_eq_true h
  have hvalid := t.nanos_valid
  unfold secondOfDay
  omega

/-- The instant without the fraction of its second. A leap second stays one. -/
def withoutFraction (t : Instant) : Instant where
  seconds := t.seconds
  nanos := if t.isLeapSecond then nanosPerSecond else 0
  firstSecond_le := t.firstSecond_le
  le_lastSecond := t.le_lastSecond
  nanos_valid := by
    have hvalid := t.nanos_valid
    cases hleap : t.isLeapSecond with
    | false => exact .inl (by decide)
    | true =>
      have hle : nanosPerSecond ≤ t.nanos := of_decide_eq_true hleap
      exact .inr ⟨by omega, by decide⟩

theorem nanos_withoutFraction (t : Instant) :
    t.withoutFraction.nanos = if t.isLeapSecond then nanosPerSecond else 0 := rfl

theorem isLeapSecond_withoutFraction : t.withoutFraction.isLeapSecond = t.isLeapSecond := by
  rw [isLeapSecond, nanos_withoutFraction]
  cases t.isLeapSecond <;> rfl

theorem fraction_withoutFraction : t.withoutFraction.nanos % nanosPerSecond = 0 := by
  rw [nanos_withoutFraction]
  cases t.isLeapSecond <;> rfl

theorem fullText_withoutFraction : t.withoutFraction.fullText = t.wholeText := by
  have hday : t.withoutFraction.day = t.day := rfl
  have hsecond : t.withoutFraction.secondOfDay = t.secondOfDay := rfl
  have hseconds : t.withoutFraction.secondsText = t.secondsText := by
    rw [secondsText, hday, hsecond, isLeapSecond_withoutFraction]
    rfl
  have hnone : fractionText 0 = [] := rfl
  rw [fullText, fraction_withoutFraction, hseconds, wholeText, hnone, List.append_nil]

end Instant

/-- A fraction of a number of places, which is the number of nanoseconds without the zeros that
stand for the other places. -/
theorem isFraction_padded {places n : Nat} (hplaces : 0 < places) (hle : places ≤ 9)
    (h : n < 10 ^ places) : IsFraction ('.' :: padded places n) (n * 10 ^ (9 - places)) := by
  obtain ⟨hlength, hrun⟩ := width_padded hplaces h
  have hpow : nanosPerSecond = 10 ^ (9 - places) * 10 ^ places := by
    rw [← Nat.pow_add, Nat.sub_add_cancel hle]
  have hsome : padded places n ≠ [] := List.ne_nil_of_length_pos (by omega)
  have hvalue : natOfDigits (padded places n) * nanosPerSecond /
      10 ^ (padded places n).length = n * 10 ^ (9 - places) := by
    rw [natOfDigits_padded, hlength, hpow, ← Nat.mul_assoc,
      Nat.mul_div_cancel _ (Nat.pow_pos (by decide))]
  exact hvalue ▸ .digits ⟨hsome, hrun⟩

theorem isFraction_fractionText {n : Nat} (h : n < nanosPerSecond) :
    IsFraction (fractionText n) n := by
  have hpadded {places k : Nat} (hplaces : 0 < places) (hle : places ≤ 9) (hk : k < 10 ^ places)
      (hn : k * 10 ^ (9 - places) = n) : IsFraction ('.' :: padded places k) n :=
    hn ▸ isFraction_padded hplaces hle hk
  unfold nanosPerSecond at h
  unfold fractionText
  split
  · next hzero =>
    rw [hzero]
    exact .absent
  · split
    · exact hpadded (by decide) (by decide) (by omega) (by omega)
    · split
      · exact hpadded (by decide) (by decide) (by omega) (by omega)
      · exact hpadded (by decide) (by decide) h (by omega)

variable {t now : Instant}

namespace Fields

def zonedText (f : Fields) : List Char :=
  padded 4 f.year.1 ++ '-' :: (padded 2 f.month ++ '-' :: (padded 2 f.day ++
    'T' :: (padded 2 f.hour ++ ':' :: (padded 2 f.minute ++ ':' :: padded 2 f.second))))

structure Fits (f : Fields) : Prop where
  year : f.year.1 < 10 ^ 4 ∧ f.year.2 = false
  numbers : ∀ n ∈ [f.month, f.day, f.hour, f.minute, f.second], n < 10 ^ 2

theorem columns_zonedText {f : Fields} (h : f.Fits) : shape f.zonedText ∈ zonedShapes ∧
    { columns f.zonedText with nanos := f.nanos } = f := by
  obtain ⟨⟨⟨year, negative⟩, month, day, hour, minute, second, nanos⟩, hyear, hnumbers⟩ := f, h
  obtain ⟨hyear, rfl⟩ := hyear
  simp only [List.forall_mem_cons, List.not_mem_nil, false_implies, implies_true, and_true]
    at hnumbers
  obtain ⟨hmonth, hday, hhour, hminute, hsecond⟩ := hnumbers
  have htwo {n : Nat} (h : n < 10 ^ 2) : Width 2 (padded 2 n) := width_padded (by decide) h
  have hclock : ClockText (padded 2 hour ++ ':' :: (padded 2 minute ++ ':' :: padded 2 second))
      _ _ _ := ⟨rfl, htwo hhour, htwo hminute⟩
  have hdate : DateText '-' (zonedText ⟨(year, false), month, day, hour, minute, second, nanos⟩)
      _ _ _ _ := ⟨rfl, width_padded (by decide) hyear, htwo hmonth, htwo hday⟩
  constructor
  · rw [shape_date (by decide) hdate, shape_cons (by decide), shape_clock hclock,
      shape_cons (by decide), shape_digits (htwo hsecond)]
    decide
  · rw [columns_seconds hdate hclock (htwo hsecond)]
    simp only [natOfDigits_padded]

end Fields

namespace Instant

def fields (t : Instant) (d : Date) : Fields where
  year := (d.year.toNat, false)
  month := d.month
  day := d.day
  hour := t.secondOfDay.toNat / 3600
  minute := t.secondOfDay.toNat / 60 % 60
  second := t.secondOfDay.toNat % 60 + if t.isLeapSecond then 1 else 0
  nanos := t.nanos % nanosPerSecond

variable {d : Date}

theorem yearOfDay_day (hd : d.dayNumber = t.day) : yearOfDay t.day = d.year := by
  rw [← hd]
  exact congrArg Prod.fst d.partsOfDay_dayNumber

theorem secondsText_eq (hd : d.dayNumber = t.day) (hyear : FourDigitYear t) :
    t.secondsText = (t.fields d).zonedText := by
  have hparts := d.partsOfDay_dayNumber
  have htext : yearText d.year = padded 4 d.year.toNat := if_pos (yearOfDay_day hd ▸ hyear)
  rw [hd] at hparts
  rw [secondsText, hparts]
  dsimp only
  rw [htext]
  simp only [List.append_assoc, List.cons_append, fields, Fields.zonedText]

/-- The clock that is printed shows the second of the day, or the leap second after it. -/
theorem clock_of_fields (t : Instant) (d : Date) : let f := t.fields d
    (f.hour ≤ 23 ∧ f.minute ≤ 59 ∧ f.second ≤ 60) ∧
      t.secondOfDay = 3600 * f.hour + 60 * f.minute + min f.second 59 ∧
      (f.second = 60 ↔ t.isLeapSecond = true) := by
  obtain ⟨hlow, hhigh⟩ := t.secondOfDay_bounds
  unfold fields
  dsimp only
  cases hleap : t.isLeapSecond with
  | false =>
    simp only [Bool.false_eq_true, if_false, iff_false]
    omega
  | true =>
    have hlast := second_of_isLeapSecond hleap
    simp only [if_true, iff_true]
    omega

theorem denotes_fields (hd : d.dayNumber = t.day) (hyear : FourDigitYear t) :
    (t.fields d).Denotes 0 t := by
  obtain ⟨hrange, hclock, hleap⟩ := t.clock_of_fields d
  have hyears : d.year = (t.fields d).yearValue :=
    (Int.toNat_of_nonneg (yearOfDay_day hd ▸ hyear.1)).symm
  refine ⟨d, ⟨hyears, rfl, rfl⟩, hrange, ?_, ?_⟩
  · rw [hd, ← hclock, Int.sub_zero]
    exact (Int.mul_ediv_add_emod t.seconds 86400).symm
  · simp only [hleap]
    exact t.nanos_split.2

theorem fits_fields (hd : d.dayNumber = t.day) (hyear : FourDigitYear t) : (t.fields d).Fits := by
  obtain ⟨⟨hhour, hminute, hsecond⟩, -, -⟩ := t.clock_of_fields d
  have hlast : d.year ≤ 9999 := yearOfDay_day hd ▸ hyear.2
  have hmonth : (t.fields d).month ≤ 12 := d.month_le
  have hday : (t.fields d).day ≤ 31 := Nat.le_trans d.day_le (daysInMonth_le _ _)
  refine ⟨⟨?_, rfl⟩, ?_⟩
  · change d.year.toNat < 10 ^ 4
    omega
  · simp only [List.forall_mem_cons, List.not_mem_nil, false_implies, implies_true, and_true]
    omega

theorem isZoned_secondsText (hyear : FourDigitYear t) {signs fraction : List Char}
    (hfraction : IsFraction fraction (t.nanos % nanosPerSecond)) :
    IsZoned signs (t.secondsText ++ (fraction ++ ['Z'])) t := by
  obtain ⟨d, hd⟩ := Date.exists_dayNumber t.day
  obtain ⟨hshape, hcolumns⟩ := Fields.columns_zonedText (fits_fields hd hyear)
  have hdenotes := denotes_fields hd hyear
  rw [← hcolumns] at hdenotes
  rw [secondsText_eq hd hyear]
  exact ⟨_, _, _, _, 0, rfl, hshape, hfraction, .utc (.inl rfl), hdenotes⟩

theorem isZoned_fullText (hyear : FourDigitYear t) {signs : List Char} :
    IsZoned signs t.fullText.toList t := by
  rw [fullText, String.toList_ofList, List.append_assoc]
  exact isZoned_secondsText hyear (isFraction_fractionText t.nanos_split.1)

end Instant

def isStampChar (c : Char) : Bool := isDigit c || c ∈ ['-', 'T', ':', '.', 'Z']

theorem isStampChar_classes {c : Char} (h : isStampChar c = true) :
    isWhiteSpace c = false ∧ Json.escapeChar c = [c] := by
  have hmarks : ∀ c ∈ ['-', 'T', ':', '.', 'Z'],
      isWhiteSpace c = false ∧ Json.escapeChar c = [c] := forall_mem_of_all (by decide)
  have hdigits : ∀ k ≤ 9, isWhiteSpace (Char.ofNat (48 + k)) = false ∧
      Json.escapeChar (Char.ofNat (48 + k)) = [Char.ofNat (48 + k)] := by decide
  rw [isStampChar, Bool.or_eq_true, decide_eq_true_eq] at h
  refine h.elim (fun hdigit => ?_) (hmarks c)
  exact of_isDigit (P := fun c => isWhiteSpace c = false ∧ Json.escapeChar c = [c]) hdigits hdigit

theorem run_isStampChar {s : List Char} (h : Run isDigit s) : Run isStampChar s :=
  fun c hc => by rw [isStampChar, h c hc, Bool.true_or]

theorem IsFraction.run {fraction : List Char} {n : Nat} (h : IsFraction fraction n) :
    Run isStampChar fraction := by
  cases h with
  | absent => exact run_nil _
  | digits h => exact (run_cons _ _ _).2 ⟨rfl, run_isStampChar h.2⟩

theorem run_fullText (hyear : FourDigitYear t) : Run isStampChar t.fullText.toList := by
  obtain ⟨d, hd⟩ := Date.exists_dayNumber t.day
  have hdigits (width n : Nat) : ∀ c ∈ padded width n, isStampChar c = true :=
    run_isStampChar (run_padded width n)
  have hfraction : ∀ c ∈ fractionText (t.nanos % nanosPerSecond), isStampChar c = true :=
    (isFraction_fractionText t.nanos_split.1).run
  have hmarks : isStampChar '-' = true ∧ isStampChar 'T' = true ∧ isStampChar ':' = true ∧
      isStampChar 'Z' = true := by decide
  rw [Instant.fullText, String.toList_ofList, Instant.secondsText_eq hd hyear, Fields.zonedText]
  simp only [Run, List.forall_mem_append, List.forall_mem_cons, hmarks, true_and]
  exact ⟨⟨⟨hdigits _ _, hdigits _ _, hdigits _ _, hdigits _ _, hdigits _ _, hdigits _ _⟩,
    hfraction⟩, List.forall_mem_nil _⟩

theorem quote_fullText (hyear : FourDigitYear t) :
    Json.quote t.fullText = '"' :: t.fullText.toList ++ ['"'] := by
  have hplain : t.fullText.toList.flatMap Json.escapeChar = t.fullText.toList.flatMap ([·]) :=
    List.flatMap_congr fun c hc => (isStampChar_classes (run_fullText hyear c hc)).2
  rw [Json.quote, hplain, List.flatMap_singleton']

theorem read?_of_isZoned {text : String} (h : IsZoned ['+', '-', '\u2212'] text.toList t)
    (hplain : IsPlain text.toList) (now : Instant) : read? now text = some t := by
  rw [read?_eq_some_iff, trim_eq_self hplain.stops hplain.reverse.stops]
  exact .inl (absolute?_eq_some_iff.2 (.inr (.inl h)))

theorem isPlain_fullText (hyear : FourDigitYear t) : IsPlain t.fullText.toList := by
  refine ⟨?_, fun c hc => ?_⟩
  · rw [Instant.fullText, String.toList_ofList]
    exact List.append_ne_nil_of_right_ne_nil _ (List.cons_ne_nil _ _)
  · simp [(isStampChar_classes (run_fullText hyear c hc)).1]

theorem read?_fullText (hyear : FourDigitYear t) (now : Instant) :
    read? now t.fullText = some t :=
  read?_of_isZoned (Instant.isZoned_fullText hyear) (isPlain_fullText hyear) now

theorem validate_of_read? {text : String} (h : read? now text = some t) (field : String)
    (types : List ValueType) :
    (Constraint.mk none (some (.date :: types))).validate field now (.string text) =
      .ok (.date t) := by
  have hdate : ValueType.date.accept? now (.string text) = some (.date t) := by
    change (read? now text).map Literal.date = _
    rw [h]
    rfl
  refine Constraint.validate_eq_ok_iff.2 ⟨rfl, ?_⟩
  change (ValueType.date :: types).findSome? (·.accept? now (.string text)) = some (.date t)
  rw [List.findSome?_cons, hdate]

/-- Printed dates are read back. A printed instant of the years 0 to 9999 is a string in JSON,
which is the instant wherever dates are read and is taken as it by a field that tries dates
first; printed as plain text it is the instant without the fraction of its second. -/
theorem printed_dates_read_back (t now : Instant) (hyear : FourDigitYear t) :
    (∃ s, (Literal.date t).toJson = .string s ∧
      (Literal.date t).toJson.text.toList = '"' :: s.toList ++ ['"'] ∧
      read? now s = some t ∧
      ∀ field types, (Constraint.mk none (some (.date :: types))).validate field now (.string s) =
        .ok (.date t)) ∧
    read? now (Literal.date t).display = some t.withoutFraction := by
  have hread := read?_fullText hyear now
  refine ⟨⟨t.fullText, rfl, ?_, hread, validate_of_read? hread⟩, ?_⟩
  · exact String.toList_ofList.trans (quote_fullText hyear)
  · have hyear' : FourDigitYear t.withoutFraction := hyear
    have htext : (Literal.date t).display = t.withoutFraction.fullText :=
      Instant.fullText_withoutFraction.symm
    rw [htext]
    exact read?_fullText hyear' now

/-- A leap second at the end of the last year that is printed without a sign. -/
theorem printed_dates_read_back_leapSecond :
    let t : Instant := ⟨253402300799, 1500000000, by decide, by decide, .inr (by decide)⟩
    let now : Instant := ⟨1710498600, 0, by decide, by decide, .inl (by decide)⟩
    FourDigitYear t ∧ (Literal.date t).display = "9999-12-31T23:59:60Z" ∧
      read? now "9999-12-31T23:59:60.500Z" = some t ∧
      read? now "9999-12-31T23:59:60Z" = some t.withoutFraction ∧
      t.withoutFraction.nanos = nanosPerSecond := by
  intro t now
  have hyear : FourDigitYear t := by decide
  have hwhole : (Literal.date t).display = "9999-12-31T23:59:60Z" := by decide +kernel
  have hfull : t.fullText = "9999-12-31T23:59:60.500Z" := by decide +kernel
  obtain ⟨⟨s, hs, -, hread, -⟩, hplain⟩ := printed_dates_read_back t now hyear
  obtain rfl : t.fullText = s := Json.string.inj hs
  rw [hfull] at hread
  rw [hwhole] at hplain
  exact ⟨hyear, hwhole, hread, hplain, rfl⟩

end Sift.Time

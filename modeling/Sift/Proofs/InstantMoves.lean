import Sift.Proofs.CalendarDays
import Sift.Time.Reader

/-!
# Moves by seconds and by months

What a move by a number of units has to reach is said by the calendar alone, and the moves
reach it. The arithmetic on the way is bounded at several places, by the 64 bits of an amount
and of its products and by the longest duration, but all of these bounds lie outside the
calendar: whatever exceeds one of them is a move past its first or last instant.

A `Step` of a unit is so many seconds or so many months of the calendar, and `monthIndex`
counts the months from the year 0. `Reaches` is the instant that steps lead to, and
`InCalendar` whether there is one.
-/

namespace Sift.Time

def firstYear : Int := -262143

def lastYear : Int := 262142

namespace Date

def monthIndex (d : Date) : Int := 12 * d.year + (d.month - 1 : Nat)

/-- The same day of another month, or its last day if it is too short. -/
def IsShifted (d : Date) (n : Int) (d' : Date) : Prop :=
  d'.monthIndex = d.monthIndex + n ∧ d'.day = min d.day (daysInMonth d'.year d'.month)

instance (d : Date) (n : Int) (d' : Date) : Decidable (d.IsShifted n d') :=
  inferInstanceAs (Decidable (_ ∧ _))

theorem ofParts?_eq_some_iff {year : Int} {month day : Nat} {d : Date} :
    ofParts? year month day = some d ↔ d.year = year ∧ d.month = month ∧ d.day = day := by
  unfold ofParts?
  constructor
  · intro h
    split at h
    · obtain rfl := Option.some.inj h
      exact ⟨rfl, rfl, rfl⟩
    · cases h
  · rintro ⟨rfl, rfl, rfl⟩
    rw [dif_pos ⟨d.month_pos, d.month_le, d.day_pos, d.day_le⟩]

theorem year_month_of_monthIndex {d : Date} {index : Int} (h : d.monthIndex = index) :
    d.year = index / 12 ∧ d.month = (index % 12).toNat + 1 := by
  have hpos := d.month_pos
  have hle := d.month_le
  unfold monthIndex at h
  omega

theorem exists_isShifted (d : Date) (n : Int) : ∃ d', d.IsShifted n d' := by
  obtain ⟨index, hindex⟩ : ∃ index, index = d.monthIndex + n := ⟨_, rfl⟩
  have hmonth : 1 ≤ (index % 12).toNat + 1 := Nat.le_add_left ..
  have hmonth' : (index % 12).toNat + 1 ≤ 12 := by omega
  have hday := d.day_pos
  have hdays := daysInMonth_pos (y := index / 12) hmonth hmonth'
  refine ⟨⟨index / 12, (index % 12).toNat + 1,
    min d.day (daysInMonth (index / 12) ((index % 12).toNat + 1)), hmonth, hmonth', ?_, ?_⟩, ?_, rfl⟩
  · omega
  · exact Nat.min_le_right ..
  · have hdivision : 12 * (index / 12) + ((index % 12).toNat : Int) = index := by omega
    exact hdivision.trans hindex

/-- A date has one shift, the one that its parts are computed for. -/
theorem isShifted_iff {d d' : Date} {n : Int} : d.IsShifted n d' ↔
    ofParts? ((d.monthIndex + n) / 12) (((d.monthIndex + n) % 12).toNat + 1)
      (min d.day (daysInMonth ((d.monthIndex + n) / 12) (((d.monthIndex + n) % 12).toNat + 1))) =
        some d' := by
  rw [ofParts?_eq_some_iff]
  constructor
  · rintro ⟨hindex, hday⟩
    obtain ⟨hyear, hmonth⟩ := year_month_of_monthIndex hindex
    exact ⟨hyear, hmonth, by rw [hday, hyear, hmonth]⟩
  · rintro ⟨hyear, hmonth, hday⟩
    refine ⟨?_, by rw [hday, hyear, hmonth]⟩
    unfold monthIndex at hyear hmonth ⊢
    omega

theorem le_year_iff (d : Date) (y : Int) : y ≤ d.year ↔ startOfYear y ≤ d.dayNumber := by
  have hlow := d.startOfYear_le_dayNumber
  have hhigh := d.dayNumber_lt_startOfYear
  constructor
  · intro h
    have := startOfYear_mono h
    omega
  · intro h
    refine Int.not_lt.1 fun hlt => ?_
    have := startOfYear_mono (Int.add_one_le_of_lt hlt)
    omega

theorem year_bounds_iff (d : Date) : firstYear ≤ d.year ∧ d.year ≤ lastYear ↔
    firstSecond ≤ 86400 * d.dayNumber ∧ 86400 * d.dayNumber + 86399 ≤ lastSecond := by
  have hfirst : startOfYear firstYear * 86400 = firstSecond := by decide
  have hlast : startOfYear (lastYear + 1) * 86400 = lastSecond + 1 := by decide
  have hlow := d.le_year_iff firstYear
  have hhigh := d.le_year_iff (lastYear + 1)
  omega

end Date

namespace Instant

theorem ofParts?_eq_some_iff {seconds : Int} {nanos : Nat} {t : Instant} :
    ofParts? seconds nanos = some t ↔ t.seconds = seconds ∧ t.nanos = nanos := by
  unfold ofParts?
  constructor
  · intro h
    split at h
    · obtain rfl := Option.some.inj h
      exact ⟨rfl, rfl⟩
    · cases h
  · rintro ⟨rfl, rfl⟩
    rw [dif_pos ⟨t.firstSecond_le, t.le_lastSecond, t.nanos_valid⟩]

theorem exists_instant_iff {seconds : Int} {nanos : Nat} (h : nanos < nanosPerSecond) :
    (∃ t : Instant, t.seconds = seconds ∧ t.nanos = nanos) ↔
      firstSecond ≤ seconds ∧ seconds ≤ lastSecond := by
  constructor
  · rintro ⟨t, rfl, -⟩
    exact ⟨t.firstSecond_le, t.le_lastSecond⟩
  · rintro ⟨hlow, hhigh⟩
    exact ⟨⟨seconds, nanos, hlow, hhigh, .inl h⟩, rfl, rfl⟩

theorem nanos_lt {t : Instant} (h : t.isLeapSecond = false) : t.nanos < nanosPerSecond := by
  simpa [isLeapSecond] using h

theorem secondOfDay_bounds (t : Instant) : 0 ≤ t.secondOfDay ∧ t.secondOfDay ≤ 86399 := by
  unfold secondOfDay
  omega

theorem seconds_eq_iff (t : Instant) {n second : Int} (h : 0 ≤ second) (h' : second ≤ 86399) :
    t.seconds = 86400 * n + second ↔ t.day = n ∧ t.secondOfDay = second := by
  unfold day secondOfDay
  omega

/-- The years of the instants are those of the calendar. -/
theorem year_bounds {t : Instant} {d : Date} (h : d.dayNumber = t.day) :
    firstYear ≤ d.year ∧ d.year ≤ lastYear := by
  have hlow := t.firstSecond_le
  have hhigh := t.le_lastSecond
  rw [d.year_bounds_iff, h]
  unfold day
  unfold firstSecond lastSecond at *
  omega

theorem addSeconds?_eq_some_iff {now t : Instant} (h : now.isLeapSecond = false) (n : Int) :
    now.addSeconds? n = some t ↔ t.seconds = now.seconds + n ∧ t.nanos = now.nanos := by
  rw [addSeconds?, if_neg (by simp [h]), ofParts?_eq_some_iff]

theorem addMonths?_eq_some_iff {now t : Instant} (h : now.isLeapSecond = false) (n : Int) :
    now.addMonths? n = some t ↔ ∃ d d' : Date, d.dayNumber = now.day ∧ d'.dayNumber = t.day ∧
      d.IsShifted n d' ∧ t.secondOfDay = now.secondOfDay ∧ t.nanos = now.nanos := by
  obtain ⟨d, hd⟩ := Date.exists_dayNumber now.day
  obtain ⟨d', hd'⟩ := d.exists_isShifted n
  have hparts := Date.partsOfDay_dayNumber d
  have hcompute := Date.isShifted_iff.1 hd'
  obtain ⟨hlow, hhigh⟩ := now.secondOfDay_bounds
  rw [hd] at hparts
  unfold Date.monthIndex at hcompute
  unfold addMonths?
  rw [hparts]
  dsimp only
  rw [hcompute]
  dsimp only
  rw [Option.filter_eq_some_iff, ofParts?_eq_some_iff, t.seconds_eq_iff hlow hhigh]
  constructor
  · rintro ⟨⟨⟨hday, hsecond⟩, hnanos⟩, -⟩
    exact ⟨d, d', hd, hday.symm, hd', hsecond, hnanos⟩
  · rintro ⟨e, e', he, he', hshift, hsecond, hnanos⟩
    obtain rfl : e = d := Date.dayNumber_injective (he.trans hd.symm)
    obtain rfl : e' = d' :=
      Option.some.inj ((Date.isShifted_iff.1 hshift).symm.trans (Date.isShifted_iff.1 hd'))
    have hleap : t.isLeapSecond = false := by
      rw [isLeapSecond, hnanos]
      exact h
    exact ⟨⟨⟨he'.symm, hsecond⟩, hnanos⟩, by simp [hleap]⟩

end Instant

inductive Step where
  | seconds (count : Nat)
  | months (count : Nat)
deriving DecidableEq

/-- The instant that `n` steps lead to: the seconds are exact and the nanoseconds stay, and a
move by months keeps the time of day. -/
def Reaches (now : Instant) (n : Int) (t : Instant) : Step → Prop
  | .seconds k => t.seconds = now.seconds + n * k ∧ t.nanos = now.nanos
  | .months k => ∃ d d' : Date, d.dayNumber = now.day ∧ d'.dayNumber = t.day ∧
      d.IsShifted (n * k) d' ∧ t.secondOfDay = now.secondOfDay ∧ t.nanos = now.nanos

/-- The second or the year that `n` steps lead to is one of the calendar. -/
def InCalendar (now : Instant) (n : Int) : Step → Prop
  | .seconds k => firstSecond ≤ now.seconds + n * k ∧ now.seconds + n * k ≤ lastSecond
  | .months k => ∃ d d' : Date, d.dayNumber = now.day ∧ d.IsShifted (n * k) d' ∧
      firstYear ≤ d'.year ∧ d'.year ≤ lastYear

/-- Some instant is reached exactly if the calendar goes that far. -/
theorem exists_reaches_iff {now : Instant} (h : now.isLeapSecond = false) (n : Int)
    (step : Step) : (∃ t, Reaches now n t step) ↔ InCalendar now n step := by
  have hnanos := Instant.nanos_lt h
  cases step with
  | seconds k => exact Instant.exists_instant_iff hnanos
  | months k =>
    obtain ⟨hlow, hhigh⟩ := now.secondOfDay_bounds
    constructor
    · rintro ⟨t, d, d', hd, hd', hshift, -, -⟩
      exact ⟨d, d', hd, hshift, Instant.year_bounds hd'⟩
    · rintro ⟨d, d', hd, hshift, hyear⟩
      obtain ⟨hfirst, hlast⟩ := d'.year_bounds_iff.1 hyear
      obtain ⟨t, hseconds, hsame⟩ := (Instant.exists_instant_iff hnanos).2
        ⟨show firstSecond ≤ 86400 * d'.dayNumber + now.secondOfDay by omega, by omega⟩
      obtain ⟨hday, hsecond⟩ := (t.seconds_eq_iff hlow hhigh).1 hseconds
      exact ⟨t, d, d', hd, hday.symm, hshift, hsecond, hsame⟩

theorem int64?_eq_some_iff {n : Int} {i : Int64} : int64? n = some i ↔ i.toInt = n := by
  unfold int64?
  constructor
  · intro h
    rw [Option.ite_none_right_eq_some] at h
    have hmax : Int64.maxValue.toInt < 2 ^ 63 := by decide
    rw [← Option.some.inj h.2, Int64.toInt_ofInt_of_le h.1.1 (by omega)]
  · rintro rfl
    rw [if_pos ⟨i.minValue_le_toInt, i.toInt_le⟩, Int64.ofInt_toInt]

theorem exists_int64 {n : Int} (h : n.natAbs ≤ durationLimit.natAbs) : ∃ i : Int64, i.toInt = n := by
  have hlimit : durationLimit.natAbs < 2 ^ 62 := by decide
  exact ⟨Int64.ofInt n, Int64.toInt_ofInt_of_le (by omega) (by omega)⟩

theorem natAbs_le_natAbs_mul (n : Int) {k : Nat} (h : 0 < k) : n.natAbs ≤ (n * k).natAbs := by
  rw [Int.natAbs_mul, Int.natAbs_natCast]
  exact Nat.le_mul_of_pos_right _ h

theorem moveSeconds?_eq_some_iff {now t : Instant} (h : now.isLeapSecond = false) (count : Int64) :
    moveSeconds? now count = some t ↔
      t.seconds = now.seconds + count.toInt ∧ t.nanos = now.nanos := by
  unfold moveSeconds?
  rw [Option.ite_none_right_eq_some, now.addSeconds?_eq_some_iff h]
  refine and_iff_right_of_imp fun hreached => ?_
  have hseconds := hreached.1
  have hnow := now.firstSecond_le
  have hnow' := now.le_lastSecond
  have ht := t.firstSecond_le
  have ht' := t.le_lastSecond
  unfold firstSecond lastSecond durationLimit at *
  omega

theorem natAbs_le_of_isShifted {now t : Instant} {d d' : Date} {n : Int}
    (hd : d.dayNumber = now.day) (hd' : d'.dayNumber = t.day) (h : d.IsShifted n d') :
    n.natAbs ≤ monthLimit := by
  have hyear := Instant.year_bounds hd
  have hyear' := Instant.year_bounds hd'
  have hindex := h.1
  have hmonth := d.month_le
  have hmonth' := d'.month_le
  unfold Date.monthIndex firstYear lastYear monthLimit at *
  omega

theorem moveMonths?_eq_some_iff {now t : Instant} (h : now.isLeapSecond = false) (count : Int64) :
    moveMonths? now count = some t ↔ ∃ d d' : Date, d.dayNumber = now.day ∧
      d'.dayNumber = t.day ∧ d.IsShifted count.toInt d' ∧ t.secondOfDay = now.secondOfDay ∧
        t.nanos = now.nanos := by
  unfold moveMonths?
  rw [Option.ite_none_right_eq_some, now.addMonths?_eq_some_iff h]
  refine and_iff_right_of_imp fun hreached => ?_
  obtain ⟨d, d', hd, hd', hshift, -⟩ := hreached
  exact natAbs_le_of_isShifted hd hd' hshift

def TimeUnit.step (multiple : Nat) : TimeUnit → Step
  | .seconds k => .seconds (multiple * k)
  | .months => .months multiple

def Step.count : Step → Nat
  | .seconds k | .months k => k

/-- Whatever is reached is few enough units away for every bound on the way. -/
theorem natAbs_le_of_reaches {now t : Instant} {n : Int} {step : Step} (h : Reaches now n t step) :
    (n * step.count).natAbs ≤ durationLimit.natAbs := by
  cases step with
  | seconds k =>
    have hseconds : t.seconds = now.seconds + n * (k : Int) := h.1
    have hnow := now.firstSecond_le
    have hnow' := now.le_lastSecond
    have ht := t.firstSecond_le
    have ht' := t.le_lastSecond
    change (n * (k : Int)).natAbs ≤ _
    generalize n * (k : Int) = m at *
    unfold firstSecond lastSecond durationLimit at *
    omega
  | months k =>
    obtain ⟨d, d', hd, hd', hshift, -⟩ := h
    exact Nat.le_trans (natAbs_le_of_isShifted hd hd' hshift) (by decide)

/-- A shift by any whole number of steps reaches what it has to reach, and nothing else. -/
theorem shift?_eq_some_iff {now t : Instant} (h : now.isLeapSecond = false) {unit : List Char}
    {multiple : Nat} {base : TimeUnit} (hunit : TimeUnit.ofText? unit = some (multiple, base))
    (hpos : 0 < (base.step multiple).count) (n : Int) :
    ((int64? n).bind fun amount => shift? now amount unit) = some t ↔
      Reaches now n t (base.step multiple) := by
  constructor
  · intro hshift
    obtain ⟨amount, hamount, hshift⟩ := Option.bind_eq_some_iff.1 hshift
    rw [int64?_eq_some_iff] at hamount
    simp only [shift?, hunit, Option.bind_eq_bind, Option.bind_some, hamount] at hshift
    obtain ⟨count, hcount, hmove⟩ := Option.bind_eq_some_iff.1 hshift
    rw [int64?_eq_some_iff] at hcount
    cases base with
    | seconds k =>
      obtain ⟨total, htotal, hmove⟩ := Option.bind_eq_some_iff.1 hmove
      rw [int64?_eq_some_iff, hcount] at htotal
      rw [moveSeconds?_eq_some_iff h, htotal] at hmove
      simpa only [TimeUnit.step, Reaches, Int.natCast_mul, Int.mul_assoc] using hmove
    | months =>
      rw [moveMonths?_eq_some_iff h, hcount] at hmove
      exact hmove
  · intro hreaches
    have hbound := natAbs_le_of_reaches hreaches
    obtain ⟨amount, hamount⟩ := exists_int64 (Nat.le_trans (natAbs_le_natAbs_mul n hpos) hbound)
    rw [int64?_eq_some_iff.2 hamount, Option.bind_some, shift?, hunit]
    simp only [Option.bind_eq_bind, Option.bind_some, hamount]
    cases base with
    | seconds k =>
      have hproduct : n * ((multiple * k : Nat) : Int) = n * multiple * k := by
        rw [Int.natCast_mul, Int.mul_assoc]
      simp only [TimeUnit.step, Step.count, hproduct] at hbound hpos
      have hk : 0 < k := Nat.pos_of_mul_pos_left hpos
      obtain ⟨count, hcount⟩ := exists_int64 (Nat.le_trans (natAbs_le_natAbs_mul _ hk) hbound)
      obtain ⟨total, htotal⟩ := exists_int64 hbound
      rw [int64?_eq_some_iff.2 hcount, Option.bind_some, hcount]
      dsimp only
      rw [int64?_eq_some_iff.2 htotal, Option.bind_some, moveSeconds?_eq_some_iff h, htotal,
        ← hproduct]
      exact hreaches
    | months =>
      obtain ⟨count, hcount⟩ := exists_int64 hbound
      change count.toInt = n * multiple at hcount
      rw [int64?_eq_some_iff.2 hcount, Option.bind_some, moveMonths?_eq_some_iff h, hcount]
      exact hreaches

end Sift.Time

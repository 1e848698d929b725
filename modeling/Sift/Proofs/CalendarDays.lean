import Mathlib.Algebra.Ring.Nat
import Sift.Time.Calendar

/-!
# Dates and their day numbers

Every day has exactly one date: a date is recovered from its day number, and every whole
number is the day number of a date. The years in between have the lengths of their months.
-/

namespace Sift.Time

theorem sum_monthLengths (y : Int) :
    (monthLengths y).sum = if isLeapYear y then 366 else 365 := by
  unfold monthLengths
  split <;> rfl

/-- A year is as long as its months. -/
theorem startOfYear_succ (y : Int) :
    startOfYear (y + 1) = startOfYear y + (monthLengths y).sum := by
  rw [sum_monthLengths]
  unfold startOfYear
  split
  · next hleap =>
    simp only [isLeapYear, Bool.and_eq_true, Bool.or_eq_true, decide_eq_true_eq] at hleap
    omega
  · next hcommon =>
    simp only [isLeapYear, Bool.and_eq_true, Bool.or_eq_true, decide_eq_true_eq] at hcommon
    omega

theorem startOfYear_mono {y y' : Int} (h : y ≤ y') : startOfYear y ≤ startOfYear y' := by
  unfold startOfYear
  omega

theorem yearOfDay_spec (n : Int) :
    startOfYear (yearOfDay n) ≤ n ∧ n < startOfYear (yearOfDay n + 1) := by
  unfold yearOfDay
  generalize hguess : 400 * (n + 719528) / 146097 = guess
  -- The guess is off by the leap days, which make up less than a year.
  have hlow : startOfYear (guess - 1) ≤ n := by
    unfold startOfYear
    omega
  have hhigh : n < startOfYear (guess + 1 + 1) := by
    unfold startOfYear
    omega
  dsimp only
  split
  · next hbefore => exact ⟨hlow, by rwa [Int.sub_add_cancel]⟩
  · next hbefore =>
    split
    · next hafter => exact ⟨hafter, hhigh⟩
    · next hafter => exact ⟨Int.not_lt.1 hbefore, Int.not_le.1 hafter⟩

theorem yearOfDay_eq {n y : Int} (hlow : startOfYear y ≤ n) (hhigh : n < startOfYear (y + 1)) :
    yearOfDay n = y := by
  obtain ⟨hlow', hhigh'⟩ := yearOfDay_spec n
  rcases Int.lt_trichotomy (yearOfDay n) y with hlt | heq | hgt
  · have := startOfYear_mono (Int.add_one_le_of_lt hlt)
    omega
  · exact heq
  · have := startOfYear_mono (Int.add_one_le_of_lt hgt)
    omega

theorem splitByLengths_sum_take {lengths : List Nat} {months days : Nat}
    (h : days < lengths.getD months 0) :
    splitByLengths lengths ((lengths.take months).sum + days) = (months, days) := by
  induction lengths generalizing months with
  | nil => simp at h
  | cons len rest ih =>
    cases months with
    | zero =>
      rw [List.getD_cons_zero] at h
      simp [splitByLengths, h]
    | succ months =>
      rw [List.getD_cons_succ] at h
      have hrest : len + (rest.take months).sum + days - len = (rest.take months).sum + days := by
        omega
      rw [List.take_succ_cons, List.sum_cons, splitByLengths, if_neg (by omega), hrest, ih h]

theorem splitByLengths_spec (lengths : List Nat) {n : Nat} (h : n < lengths.sum) :
    ∃ months days, splitByLengths lengths n = (months, days) ∧ days < lengths.getD months 0 ∧
      (lengths.take months).sum + days = n := by
  induction lengths generalizing n with
  | nil => simp at h
  | cons len rest ih =>
    rw [List.sum_cons] at h
    by_cases hfirst : n < len
    · exact ⟨0, n, by rw [splitByLengths, if_pos hfirst], hfirst, by simp⟩
    · obtain ⟨months, days, hsplit, hdays, hsum⟩ := ih (n := n - len) (by omega)
      refine ⟨months + 1, days, by rw [splitByLengths, if_neg hfirst, hsplit], hdays, ?_⟩
      rw [List.take_succ_cons, List.sum_cons]
      omega

theorem daysInMonth_eq {y : Int} {month : Nat} (h : 1 ≤ month) :
    daysInMonth y month = (monthLengths y).getD (month - 1) 0 := if_neg (by omega)

theorem daysInMonth_pos {y : Int} {month : Nat} (h : 1 ≤ month) (h' : month ≤ 12) :
    1 ≤ daysInMonth y month := by
  have hall : ∀ k < 12, 1 ≤ (monthLengths y).getD k 0 := by
    unfold monthLengths
    split <;> decide
  rw [daysInMonth_eq h]
  exact hall (month - 1) (by omega)

theorem daysInMonth_le (y : Int) (month : Nat) : daysInMonth y month ≤ 31 := by
  have hall : ∀ days ∈ monthLengths y, days ≤ 31 := by
    unfold monthLengths
    split <;> decide
  unfold daysInMonth
  split
  · decide
  · rw [List.getD_eq_getElem?_getD]
    cases hmonth : (monthLengths y)[month - 1]? with
    | none => decide
    | some days => exact hall days (List.mem_of_getElem? hmonth)

theorem month_le_of_daysInMonth_pos {y : Int} {month : Nat} (h : 0 < daysInMonth y month) :
    month ≤ 12 := by
  refine Nat.not_lt.1 fun hlarge => ?_
  have hzero : daysInMonth y month = 0 := by
    have hnone : (monthLengths y)[month - 1]? = none :=
      List.getElem?_eq_none (Nat.le_sub_one_of_lt hlarge)
    rw [daysInMonth_eq (by omega), List.getD_eq_getElem?_getD, hnone, Option.getD_none]
  omega

namespace Date

theorem daysBeforeMonth_eq (d : Date) :
    d.daysBeforeMonth = ((monthLengths d.year).take (d.month - 1)).sum :=
  List.sum_eq_foldr.symm

theorem startOfYear_le_dayNumber (d : Date) : startOfYear d.year ≤ d.dayNumber := by
  unfold dayNumber
  omega

/-- The days before a month together with the days of that month are days of the year. -/
theorem sum_take_add_getD_le (lengths : List Nat) (k : Nat) :
    (lengths.take k).sum + lengths.getD k 0 ≤ lengths.sum := by
  induction lengths generalizing k with
  | nil => simp
  | cons len rest ih =>
    cases k with
    | zero => simp
    | succ k =>
      rw [List.take_succ_cons, List.getD_cons_succ, List.sum_cons, List.sum_cons, Nat.add_assoc]
      exact Nat.add_le_add_left (ih k) len

theorem dayNumber_lt_startOfYear (d : Date) : d.dayNumber < startOfYear (d.year + 1) := by
  have hday := d.day_le
  have hpos := d.day_pos
  rw [daysInMonth_eq d.month_pos] at hday
  have hsum := sum_take_add_getD_le (monthLengths d.year) (d.month - 1)
  rw [startOfYear_succ, dayNumber, daysBeforeMonth_eq]
  omega

/-- The date of a day is recovered from the day number. -/
theorem partsOfDay_dayNumber (d : Date) : partsOfDay d.dayNumber = (d.year, d.month, d.day) := by
  have hyear : yearOfDay d.dayNumber = d.year :=
    yearOfDay_eq d.startOfYear_le_dayNumber d.dayNumber_lt_startOfYear
  have hday : d.day - 1 < (monthLengths d.year).getD (d.month - 1) 0 := by
    rw [← daysInMonth_eq d.month_pos]
    have := d.day_pos
    have := d.day_le
    omega
  have hdays : (d.dayNumber - startOfYear d.year).toNat =
      ((monthLengths d.year).take (d.month - 1)).sum + (d.day - 1) := by
    rw [dayNumber, daysBeforeMonth_eq]
    omega
  have hmonth := d.month_pos
  have hpos := d.day_pos
  simp only [partsOfDay, hyear, hdays, splitByLengths_sum_take hday, Prod.mk.injEq, true_and]
  omega

theorem dayNumber_injective {d d' : Date} (h : d.dayNumber = d'.dayNumber) : d = d' := by
  have hparts := partsOfDay_dayNumber d
  rw [h, partsOfDay_dayNumber] at hparts
  cases d
  cases d'
  simp only [Prod.mk.injEq] at hparts
  obtain ⟨rfl, rfl, rfl⟩ := hparts
  rfl

/-- Every day has a date. -/
theorem exists_dayNumber (n : Int) : ∃ d : Date, d.dayNumber = n := by
  obtain ⟨hlow, hhigh⟩ := yearOfDay_spec n
  rw [startOfYear_succ] at hhigh
  obtain ⟨months, days, -, hdays, hsum⟩ :=
    splitByLengths_spec (monthLengths (yearOfDay n))
      (n := (n - startOfYear (yearOfDay n)).toNat) (by omega)
  have hmonths : months < 12 := by
    refine Decidable.byContradiction fun hlarge => ?_
    have hlength : (monthLengths (yearOfDay n))[months]? = none :=
      List.getElem?_eq_none (Nat.not_lt.1 hlarge)
    rw [List.getD_eq_getElem?_getD, hlength] at hdays
    exact absurd hdays (Nat.not_lt_zero days)
  refine ⟨⟨yearOfDay n, months + 1, days + 1, ?_, ?_, ?_, ?_⟩, ?_⟩
  · omega
  · omega
  · omega
  · exact hdays
  · rw [dayNumber, daysBeforeMonth_eq]
    simp only [Nat.add_sub_cancel]
    omega

end Date

end Sift.Time

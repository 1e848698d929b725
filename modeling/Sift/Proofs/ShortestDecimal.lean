import Sift.Proofs.Rounding

/-!
# Numbers read back from their digits

A decimal may be written with more zeros without a change of what it is rounded to. The
exact decimal of a finite number is rounded to that number, and so is the shortest one:
it was tried, or it is the exact one.
-/

namespace Sift.Binary64

open Sift.Text

theorem digitCount_le_iff {n k : Nat} (hk : 0 < k) : digitCount n ≤ k ↔ n < 10 ^ k :=
  Nat.length_toDigits_le_iff (by decide) hk

theorem ten_pow_pos (m : Nat) : 0 < 10 ^ m := Nat.pow_pos (by decide)

theorem digitCount_pos (n : Nat) : 0 < digitCount n := Nat.length_toDigits_pos

theorem lt_pow_digitCount (n : Nat) : n < 10 ^ digitCount n :=
  (digitCount_le_iff (digitCount_pos n)).1 (Nat.le_refl _)

theorem digitCount_mul_pow {n : Nat} (hn : n ≠ 0) (m : Nat) :
    digitCount (n * 10 ^ m) = digitCount n + m := by
  have hpow := ten_pow_pos m
  have hbound (k : Nat) : n * 10 ^ m < 10 ^ (k + m) ↔ n < 10 ^ k := by
    rw [Nat.pow_add, Nat.mul_lt_mul_right hpow]
  have hcount := digitCount_pos n
  have hlast := lt_pow_digitCount (n * 10 ^ m)
  have hm : m < digitCount (n * 10 ^ m) := by
    have hle : 10 ^ m ≤ n * 10 ^ m := Nat.le_mul_of_pos_left _ (Nat.pos_of_ne_zero hn)
    exact (Nat.pow_lt_pow_iff_right (by decide)).1 (Nat.lt_of_le_of_lt hle hlast)
  apply Nat.le_antisymm
  · rw [digitCount_le_iff (by omega), hbound]
    exact lt_pow_digitCount n
  · obtain ⟨k, hk⟩ := Nat.exists_eq_add_of_lt hm
    rw [hk, show m + k + 1 = (k + 1) + m by omega, hbound,
      ← digitCount_le_iff (Nat.succ_pos k)] at hlast
    omega

theorem ofDecimal_mul_pow (negative : Bool) {digits : Nat} (h : digits ≠ 0) (m : Nat)
    (exponent : Int) :
    ofDecimal ⟨negative, digits * 10 ^ m, exponent⟩ =
      ofDecimal ⟨negative, digits, exponent + m⟩ := by
  have hpoint : Decimal.point ⟨negative, digits * 10 ^ m, exponent⟩ =
      Decimal.point ⟨negative, digits, exponent + m⟩ := by
    simp only [Decimal.point, digitCount_mul_pow h]
    push_cast
    omega
  have hproduct : digits * 10 ^ m ≠ 0 := Nat.mul_ne_zero h (ten_pow_pos m).ne'
  have hratio : ofRatio negative (digits * 10 ^ m * Nat.pow 10 exponent.toNat)
      (Nat.pow 10 (-exponent).toNat) =
      ofRatio negative (digits * Nat.pow 10 (exponent + m).toNat)
        (Nat.pow 10 (-(exponent + m)).toNat) := by
    refine ofRatio_congr negative (ten_pow_pos _) (ten_pow_pos _) ?_
    simp only [Nat.pow_eq, Nat.mul_assoc, ← Nat.pow_add]
    congr 2
    omega
  simp only [ofDecimal, h, hproduct, hpoint, hratio, if_false]

theorem fields_of_isZero {x : Binary64} (h : x.isZero) : x = zero x.negative := by
  obtain ⟨negative, exponent, fraction⟩ := x
  simp only [isZero, Bool.and_eq_true, decide_eq_true_eq] at h
  obtain ⟨rfl, rfl⟩ := h
  rfl

theorem significand_pos {x : Binary64} (h : x.isZero = false) : 0 < x.significand := by
  rcases significand_cases x with ⟨he, hs, -⟩ | ⟨-, hs, -⟩
  · rw [hs]
    apply Nat.pos_of_ne_zero
    intro hfraction
    have hexponent : x.exponent = 0 := Fin.ext he
    have hfraction' : x.fraction = 0 := Fin.ext hfraction
    simp [isZero, hexponent, hfraction'] at h
  · have hcount : 0 < fractionCount := by decide
    omega

theorem scale_bounds {x : Binary64} (h : x.isFinite) : -1074 ≤ x.scale ∧ x.scale ≤ 971 := by
  have hexponent := (isFinite_iff x).1 h
  rcases significand_cases x with ⟨-, -, hscale⟩ | ⟨he, -, hscale⟩
  · omega
  · omega

theorem numerator_lt {x : Binary64} (h : x.isFinite) : x.numerator < 2 ^ 1024 := by
  have hscale := scale_bounds h
  calc x.numerator < 2 ^ 53 * 2 ^ x.scale.toNat :=
        Nat.mul_lt_mul_of_pos_right (significand_lt x) (Nat.two_pow_pos _)
    _ = 2 ^ (53 + x.scale.toNat) := (Nat.pow_add 2 53 _).symm
    _ ≤ 2 ^ 1024 := Nat.pow_le_pow_right Nat.two_pos (by omega)

/-- Below ten to this power are all finite numbers. -/
theorem two_pow_lt_ten_pow : 2 ^ 1024 < 10 ^ 309 := by decide +kernel

theorem ten_pow_le_five_pow {p : Nat} (hlow : 325 ≤ p) (hhigh : p ≤ 1074) :
    10 ^ (p - 325) ≤ 5 ^ p := by
  obtain ⟨m, rfl⟩ := Nat.exists_eq_add_of_le hlow
  have htwo : 2 ^ m ≤ 5 ^ 325 :=
    calc 2 ^ m ≤ 2 ^ 749 := Nat.pow_le_pow_right Nat.two_pos (by omega)
      _ ≤ 5 ^ 325 := by decide +kernel
  calc 10 ^ (325 + m - 325) = 2 ^ m * 5 ^ m := by rw [Nat.add_sub_cancel_left, ← Nat.mul_pow]
    _ ≤ 5 ^ 325 * 5 ^ m := Nat.mul_le_mul_right _ htwo
    _ = 5 ^ (325 + m) := by rw [Nat.pow_add]

/-- No finite number is beyond the exponents that are expanded. -/
theorem point_exactDecimal {x : Binary64} (h : x.isFinite) (hzero : x.isZero = false) :
    -324 ≤ x.exactDecimal.point ∧ x.exactDecimal.point < 310 := by
  have hnum : 0 < x.numerator := Nat.mul_pos (significand_pos hzero) (Nat.two_pow_pos _)
  have hscale := scale_bounds h
  have hpoint : x.exactDecimal.point =
      digitCount (x.numerator * 5 ^ (-x.scale).toNat) + -((-x.scale).toNat : Int) := rfl
  rw [hpoint]
  have hplaces : (-x.scale).toNat ≤ 1074 := by omega
  generalize (-x.scale).toNat = p at hplaces ⊢
  have hcount := digitCount_pos (x.numerator * 5 ^ p)
  constructor
  · by_cases hsmall : p < 325
    · omega
    · have hdigits : ¬digitCount (x.numerator * 5 ^ p) ≤ p - 325 := by
        intro hfew
        rw [digitCount_le_iff (by omega)] at hfew
        have hfive : 10 ^ (p - 325) ≤ 5 ^ p := ten_pow_le_five_pow (by omega) (by omega)
        have hmore : 5 ^ p ≤ x.numerator * 5 ^ p := Nat.le_mul_of_pos_left _ hnum
        omega
      omega
  · have hdigits : digitCount (x.numerator * 5 ^ p) ≤ 309 + p := by
      rw [digitCount_le_iff (by omega), Nat.pow_add]
      exact Nat.mul_lt_mul_of_lt_of_le ((numerator_lt h).trans two_pow_lt_ten_pow)
        (Nat.pow_le_pow_left (by decide) p) (ten_pow_pos p)
    omega

theorem ofDecimal_exactDecimal {x : Binary64} (h : x.isFinite) (hzero : x.isZero = false) :
    ofDecimal x.exactDecimal = x := by
  have hnum : 0 < x.numerator := Nat.mul_pos (significand_pos hzero) (Nat.two_pow_pos _)
  have hdigits : x.exactDecimal.digits ≠ 0 :=
    (Nat.mul_pos hnum (Nat.pow_pos (by decide))).ne'
  obtain ⟨hlow, hhigh⟩ := point_exactDecimal h hzero
  have hpositive : (-((-x.scale).toNat : Int)).toNat = 0 := by omega
  have hnegative : (- -((-x.scale).toNat : Int)).toNat = (-x.scale).toNat := by omega
  rw [ofDecimal, if_neg hdigits, if_neg (by omega), if_neg (by omega)]
  refine ofRatio_eq h (ten_pow_pos _) ?_
  simp only [exactDecimal, denominator, hpositive, hnegative, Nat.pow_eq, Nat.pow_zero, Nat.mul_one,
    Nat.mul_assoc, ← Nat.mul_pow]

theorem ofDecimal_of_choice {x : Binary64} {below above d : Decimal} {preferAbove : Bool}
    (h : (if x.readsBack below && !(preferAbove && x.readsBack above) then some below
      else if x.readsBack above then some above else none) = some d) : ofDecimal d = x := by
  split at h
  · next hbelow =>
    rw [Bool.and_eq_true] at hbelow
    cases h
    exact of_decide_eq_true hbelow.1
  · split at h
    · next habove =>
      cases h
      exact of_decide_eq_true habove
    · cases h

theorem ofDecimal_shortest (tie : Tie) {x : Binary64} (h : x.isFinite) :
    ofDecimal (x.shortest tie) = x := by
  unfold shortest
  cases hzero : x.isZero with
  | true => exact (fields_of_isZero hzero).symm
  | false =>
    simp only [Bool.false_eq_true, if_false]
    cases hgrid : (List.range 18).findSome? fun (i : Nat) =>
      onGrid? tie x (decimalPoint x.numerator x.denominator - i) with
    | none => exact ofDecimal_exactDecimal h hzero
    | some d =>
      obtain ⟨i, -, hi⟩ := List.exists_of_findSome?_eq_some hgrid
      exact ofDecimal_of_choice hi

end Sift.Binary64

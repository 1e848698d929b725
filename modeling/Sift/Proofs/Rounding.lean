import Mathlib.Algebra.Order.Field.Power
import Mathlib.Data.Int.Log
import Mathlib.Data.Rat.Floor
import Mathlib.Tactic.FieldSimp
import Mathlib.Tactic.Linarith
import Mathlib.Tactic.Positivity
import Mathlib.Tactic.Ring
import Sift.Binary64.Shortest

/-!
# Rounding depends on the value alone

The number that a fraction is rounded to does not change when the fraction is extended,
because the place of its last bit is the binary logarithm of its value. A fraction whose
value is that of a finite number is rounded to that number.
-/

namespace Sift.Binary64

theorem log_eq_of_bounds {r : ℚ} {a : Int} (hlow : (2 : ℚ) ^ a ≤ r) (hhigh : r < 2 ^ (a + 1)) :
    Int.log 2 r = a := by
  have hr : 0 < r := lt_of_lt_of_le (by positivity) hlow
  have hle : a ≤ Int.log 2 r :=
    (Int.zpow_le_iff_le_log Nat.one_lt_two hr).1 (by exact_mod_cast hlow)
  have hlt : Int.log 2 r < a + 1 :=
    (Int.lt_zpow_iff_log_lt Nat.one_lt_two hr).1 (by exact_mod_cast hhigh)
  omega

theorem two_zpow_eq_div (a : Int) : (2 : ℚ) ^ a = 2 ^ a.toNat / 2 ^ (-a).toNat := by
  obtain ⟨n, rfl | rfl⟩ := a.eq_nat_or_neg
  · simp
  · simp

theorem scaled_lt_iff {num den : Nat} (hden : 0 < den) (a : Int) :
    num * Nat.pow 2 (-a).toNat < den * Nat.pow 2 a.toNat ↔ (num : ℚ) / den < 2 ^ a := by
  have hden' : (0 : ℚ) < den := by exact_mod_cast hden
  have hpow : (0 : ℚ) < 2 ^ (-a).toNat := by positivity
  rw [two_zpow_eq_div, div_lt_div_iff₀ hden' hpow, mul_comm ((2 : ℚ) ^ a.toNat)]
  simp only [Nat.pow_eq]
  exact_mod_cast Iff.rfl

theorem floorLog2_eq_log {num den : Nat} (hnum : 0 < num) (hden : 0 < den) :
    floorLog2 num den = Int.log 2 ((num : ℚ) / den) := by
  have hden' : (0 : ℚ) < den := by exact_mod_cast hden
  have hnumLow : (2 : ℚ) ^ (num.log2 : Int) ≤ num := by
    exact_mod_cast Nat.log2_self_le hnum.ne'
  have hnumHigh : (num : ℚ) < 2 ^ (num.log2 + 1 : Int) := by
    exact_mod_cast Nat.lt_log2_self
  have hdenLow : (2 : ℚ) ^ (den.log2 : Int) ≤ den := by
    exact_mod_cast Nat.log2_self_le hden.ne'
  have hdenHigh : (den : ℚ) < 2 ^ (den.log2 + 1 : Int) := by
    exact_mod_cast Nat.lt_log2_self
  unfold floorLog2
  simp only [scaled_lt_iff hden]
  generalize (num.log2 : Int) = m at *
  generalize (den.log2 : Int) = n at *
  have hlow : (2 : ℚ) ^ (m - n - 1) ≤ num / den := by
    rw [le_div_iff₀ hden']
    calc (2 : ℚ) ^ (m - n - 1) * den ≤ 2 ^ (m - n - 1) * 2 ^ (n + 1) := by gcongr
      _ = 2 ^ m := by rw [← zpow_add₀ two_ne_zero]; congr 1; omega
      _ ≤ num := hnumLow
  have hhigh : (num : ℚ) / den < 2 ^ (m - n + 1) := by
    rw [div_lt_iff₀ hden']
    calc (num : ℚ) < 2 ^ (m + 1) := hnumHigh
      _ = 2 ^ (m - n + 1) * 2 ^ n := by rw [← zpow_add₀ two_ne_zero]; congr 1; omega
      _ ≤ 2 ^ (m - n + 1) * den := by gcongr
  split
  · next hless => exact (log_eq_of_bounds hlow (by rwa [sub_add_cancel])).symm
  · next hmore => exact (log_eq_of_bounds (not_lt.1 hmore) hhigh).symm

theorem floorLog2_mul_right {num den k : Nat} (hnum : 0 < num) (hden : 0 < den) (hk : 0 < k) :
    floorLog2 (num * k) (den * k) = floorLog2 num den := by
  have hk' : (k : ℚ) ≠ 0 := by exact_mod_cast hk.ne'
  rw [floorLog2_eq_log (Nat.mul_pos hnum hk) (Nat.mul_pos hden hk), floorLog2_eq_log hnum hden,
    Nat.cast_mul, Nat.cast_mul, mul_div_mul_right _ _ hk']

theorem roundHalfEven_mul_right (num den : Nat) {k : Nat} (hk : 0 < k) :
    roundHalfEven (num * k) (den * k) = roundHalfEven num den := by
  simp only [roundHalfEven, Nat.mul_div_mul_right num den hk, Nat.mul_mod_mul_right,
    ← Nat.mul_assoc, gt_iff_lt, Nat.mul_lt_mul_right hk]

theorem roundHalfEven_exact (n : Nat) {den : Nat} (hden : 0 < den) :
    roundHalfEven (n * den) den = n := by
  simp [roundHalfEven, Nat.mul_div_cancel n hden, hden]

theorem ofRatio_mul_right (negative : Bool) {num den k : Nat} (hden : 0 < den) (hk : 0 < k) :
    ofRatio negative (num * k) (den * k) = ofRatio negative num den := by
  unfold ofRatio
  by_cases hnum : num = 0
  · simp [hnum]
  · have hproduct : num * k ≠ 0 := Nat.mul_ne_zero hnum hk.ne'
    rw [if_neg hproduct, if_neg hnum, floorLog2_mul_right (Nat.pos_of_ne_zero hnum) hden hk]
    simp only [Nat.mul_right_comm _ k, roundHalfEven_mul_right _ _ hk]

/-- Fractions of the same value are rounded to the same number. -/
theorem ofRatio_congr (negative : Bool) {num den num' den' : Nat} (hden : 0 < den)
    (hden' : 0 < den') (h : num * den' = num' * den) :
    ofRatio negative num den = ofRatio negative num' den' := by
  rw [← ofRatio_mul_right negative hden hden', h, Nat.mul_comm den den',
    ofRatio_mul_right negative hden' hden]

theorem isFinite_iff (x : Binary64) : x.isFinite ↔ x.exponent.val < 2047 := by
  have hlt := x.exponent.isLt
  simp only [isFinite, ne_eq, decide_not, Bool.not_eq_true', decide_eq_false_iff_not, Fin.ext_iff]
  change ¬x.exponent.val = 2047 ↔ _
  omega

theorem not_isNaN {x : Binary64} (h : x.isFinite) : x.isNaN = false := by
  simp only [isFinite, ne_eq, decide_not, Bool.not_eq_true', decide_eq_false_iff_not] at h
  simp [isNaN, h]

/-- A subnormal number has the scale of the least normal ones. -/
theorem significand_cases (x : Binary64) :
    (x.exponent.val = 0 ∧ x.significand = x.fraction ∧ x.scale = -1074) ∨
      (1 ≤ x.exponent.val ∧ x.significand = fractionCount + x.fraction ∧
        x.scale = x.exponent.val - 1075) := by
  unfold significand scale
  by_cases hzero : x.exponent = 0
  · have hval : x.exponent.val = 0 := congrArg Fin.val hzero
    exact .inl ⟨hval, if_pos hzero, by rw [hval]; rfl⟩
  · have hval : 1 ≤ x.exponent.val := by
      have hne : x.exponent.val ≠ 0 := fun h => hzero (Fin.ext h)
      omega
    exact .inr ⟨hval, if_neg hzero, by rw [max_eq_right hval]⟩

theorem significand_lt (x : Binary64) : x.significand < 2 * fractionCount := by
  have hfraction := x.fraction.isLt
  rcases significand_cases x with ⟨-, hs, -⟩ | ⟨-, hs, -⟩
  · omega
  · omega

theorem ofRank_count (negative : Bool) (exponent : Fin 2048) (fraction : Fin fractionCount)
    (h : exponent.val < 2047) :
    ofRank negative (exponent.val * fractionCount + fraction.val) =
      ⟨negative, exponent, fraction⟩ := by
  have hcount : 0 < fractionCount := by decide
  have hless : exponent.val * fractionCount + fraction.val < 2047 * fractionCount := by
    have hproduct := Nat.mul_le_mul_right fractionCount h
    have hfraction := fraction.isLt
    rw [Nat.succ_mul] at hproduct
    omega
  have hexponent : (exponent.val * fractionCount + fraction.val) / fractionCount =
      exponent.val := by
    rw [Nat.mul_comm, Nat.mul_add_div hcount, Nat.div_eq_of_lt fraction.isLt, Nat.add_zero]
  have hfraction : (exponent.val * fractionCount + fraction.val) % fractionCount =
      fraction.val := by
    rw [Nat.mul_comm, Nat.mul_add_mod, Nat.mod_eq_of_lt fraction.isLt]
  rw [ofRank, if_neg (Nat.not_le.2 hless), hexponent]
  congr 1
  · exact Fin.ext (Nat.mod_eq_of_lt exponent.isLt)
  · exact Fin.ext hfraction

theorem ofRank_fields {x : Binary64} (h : x.isFinite) :
    ofRank x.negative ((x.scale + 1074).toNat * fractionCount + x.significand) = x := by
  have hrank : (x.scale + 1074).toNat * fractionCount + x.significand =
      x.exponent.val * fractionCount + x.fraction.val := by
    rcases significand_cases x with ⟨he, hs, hscale⟩ | ⟨he, hs, hscale⟩
    · rw [he, hs, hscale]
      rfl
    · have hplaces : x.exponent.val = (x.scale + 1074).toNat + 1 := by omega
      rw [hs, hplaces, Nat.succ_mul, Nat.add_assoc]
  rw [hrank]
  exact ofRank_count x.negative x.exponent x.fraction ((isFinite_iff x).1 h)

theorem magnitude_eq (x : Binary64) :
    (x.numerator : ℚ) / x.denominator = x.significand * 2 ^ x.scale := by
  rw [two_zpow_eq_div, numerator, denominator, Nat.pow_eq, Nat.pow_eq]
  push_cast
  ring

theorem denominator_pos (x : Binary64) : 0 < x.denominator := Nat.two_pow_pos _

/-- The place of the last bit is found again from the magnitude. -/
theorem max_floorLog2_magnitude {x : Binary64} (h : x.significand ≠ 0) :
    max (floorLog2 x.numerator x.denominator - 52) (-1074) = x.scale := by
  have hpos : 0 < x.significand := Nat.pos_of_ne_zero h
  have hnum : 0 < x.numerator := Nat.mul_pos hpos (Nat.two_pow_pos _)
  have hfraction := x.fraction.isLt
  have hcount : fractionCount = 2 ^ 52 := rfl
  have hunit : (0 : ℚ) < 2 ^ x.scale := by positivity
  rw [floorLog2_eq_log hnum x.denominator_pos, magnitude_eq]
  rcases significand_cases x with ⟨-, hs, hscale⟩ | ⟨he, hs, hscale⟩
  · have hbound : (x.significand : ℚ) * 2 ^ x.scale < 2 ^ (52 + x.scale) := by
      rw [zpow_add₀ two_ne_zero]
      gcongr
      exact_mod_cast (by omega : x.significand < 2 ^ 52)
    have hlog := (Int.lt_zpow_iff_log_lt Nat.one_lt_two
      (by positivity : (0 : ℚ) < x.significand * 2 ^ x.scale)).1 (by exact_mod_cast hbound)
    omega
  · have hlow : (2 : ℚ) ^ (52 + x.scale) ≤ x.significand * 2 ^ x.scale := by
      rw [zpow_add₀ two_ne_zero]
      gcongr
      exact_mod_cast (by omega : 2 ^ 52 ≤ x.significand)
    have hhigh : (x.significand : ℚ) * 2 ^ x.scale < 2 ^ (52 + x.scale + 1) := by
      rw [add_right_comm, zpow_add₀ two_ne_zero]
      gcongr
      exact_mod_cast (by omega : x.significand < 2 ^ 53)
    rw [log_eq_of_bounds hlow hhigh]
    omega

theorem ofRatio_magnitude {x : Binary64} (h : x.isFinite) :
    ofRatio x.negative x.numerator x.denominator = x := by
  by_cases hzero : x.significand = 0
  · have hnum : x.numerator = 0 := by rw [numerator, hzero, Nat.zero_mul]
    have hfields : x.exponent.val = 0 ∧ x.fraction.val = 0 := by
      rcases significand_cases x with ⟨he, hs, -⟩ | ⟨-, hs, -⟩
      · exact ⟨he, hs.symm.trans hzero⟩
      · have hcount : 0 < fractionCount := by decide
        omega
    rw [ofRatio, if_pos hnum]
    obtain ⟨negative, exponent, fraction⟩ := x
    obtain rfl : exponent = 0 := Fin.ext hfields.1
    obtain rfl : fraction = 0 := Fin.ext hfields.2
    rfl
  · have hnum : x.numerator ≠ 0 := Nat.mul_ne_zero hzero (Nat.two_pow_pos _).ne'
    have hsignificand : roundHalfEven (x.numerator * Nat.pow 2 (-x.scale).toNat)
        (x.denominator * Nat.pow 2 x.scale.toNat) = x.significand := by
      have hproduct : x.numerator * Nat.pow 2 (-x.scale).toNat =
          x.significand * (x.denominator * Nat.pow 2 x.scale.toNat) := by
        rw [numerator, denominator]
        ring
      rw [hproduct]
      exact roundHalfEven_exact _ (Nat.mul_pos x.denominator_pos (Nat.two_pow_pos _))
    rw [ofRatio, if_neg hnum]
    simp only [max_floorLog2_magnitude hzero, hsignificand]
    exact ofRank_fields h

/-- A fraction whose value is the magnitude of a finite number is rounded to it. -/
theorem ofRatio_eq {x : Binary64} (h : x.isFinite) {num den : Nat} (hden : 0 < den)
    (heq : num * x.denominator = x.numerator * den) : ofRatio x.negative num den = x := by
  rw [ofRatio_congr x.negative hden x.denominator_pos heq, ofRatio_magnitude h]

end Sift.Binary64

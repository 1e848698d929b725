import Mathlib.Algebra.Order.Round
import Sift.Proofs.ShortestDecimal

/-!
# The nearest number

A fraction is rounded to the finite number nearest to it, and of two that are equally near
to the one with an even significand, as long as it lies below the middle between the largest
finite number and the next power of two. From there on the result is infinite.

`value` is the number that a finite float stands for. `units` counts a positive number in
units of a place, and `Placed` gives it a place of its own: what it is rounded to there, and
which numbers of units have that place.
-/

namespace Sift.Binary64

def signOf (negative : Bool) : Int := if negative then -1 else 1

def value (x : Binary64) : ℚ := signOf x.negative * x.significand * 2 ^ x.scale

/-- No finite float is nearer, and one that is equally near is the same number or has an odd
significand beside an even one. -/
def IsNearest (x : Binary64) (r : ℚ) : Prop :=
  x.isFinite = true ∧ ∀ y : Binary64, y.isFinite = true →
    |x.value - r| < |y.value - r| ∨ y.value = x.value ∨
      (|x.value - r| = |y.value - r| ∧ Even x.significand ∧ Odd y.significand)

/-- The middle between the largest finite number and the next power of two. -/
def overflowBound : ℚ := 2 ^ 1024 - 2 ^ 970

/-- Rounding moves a fraction by at most a half, and by a half only to an even number. -/
theorem roundHalfEven_near (num : Nat) {den : Nat} (hden : 0 < den) :
    |(roundHalfEven num den : ℚ) - num / den| ≤ 1 / 2 ∧
      (|(roundHalfEven num den : ℚ) - num / den| = 1 / 2 → Even (roundHalfEven num den)) := by
  have hden' : (0 : ℚ) < den := by exact_mod_cast hden
  have hvalue : (num : ℚ) / den = (num / den : Nat) + (num % den : Nat) / den := by
    have hdivision : (num : ℚ) = den * (num / den : Nat) + (num % den : Nat) := by
      exact_mod_cast (Nat.div_add_mod num den).symm
    field_simp
    linarith
  have hless (k : Nat) : (k : ℚ) / den < 1 / 2 ↔ 2 * k < den := by
    rw [div_lt_div_iff₀ hden' two_pos]
    constructor
    · intro h
      exact_mod_cast (by linarith : (2 : ℚ) * k < den)
    · intro h
      have h' : (2 : ℚ) * k < den := by exact_mod_cast h
      linarith
  have hrest : (0 : ℚ) ≤ (num % den : Nat) / den := by positivity
  have hrestLess : ((num % den : Nat) : ℚ) / den < 1 := by
    rw [div_lt_one hden']
    exact_mod_cast Nat.mod_lt num hden
  rw [hvalue]
  unfold roundHalfEven
  simp only
  split
  · next hlow =>
    have hlow' := (hless (num % den)).2 hlow
    rw [sub_add_cancel_left, abs_neg, abs_of_nonneg hrest]
    exact ⟨hlow'.le, fun h => absurd h hlow'.ne⟩
  · next hlow =>
    have hlow' : (1 : ℚ) / 2 ≤ (num % den : Nat) / den := not_lt.1 (mt (hless _).1 hlow)
    split
    · next hhigh =>
      have hhigh' : (1 : ℚ) / 2 < (num % den : Nat) / den := by
        rw [div_lt_div_iff₀ two_pos hden']
        have h : (den : ℚ) < 2 * (num % den : Nat) := by exact_mod_cast hhigh
        linarith
      rw [Nat.cast_succ, add_sub_add_left_eq_sub, abs_of_pos (by linarith)]
      exact ⟨by linarith, fun h => by linarith⟩
    · next hhigh =>
      have htie : ((num % den : Nat) : ℚ) / den = 1 / 2 := by
        have h : (den : ℚ) = 2 * (num % den : Nat) := by exact_mod_cast (by omega)
        rw [div_eq_div_iff hden'.ne' two_ne_zero, h]
        ring
      rw [htie, Nat.cast_add, add_sub_add_left_eq_sub]
      have heven : Even (num / den + num / den % 2) := by
        rw [Nat.even_iff]
        omega
      rcases Nat.mod_two_eq_zero_or_one (num / den) with hq | hq
      · rw [hq, Nat.cast_zero, zero_sub, abs_neg, abs_of_pos one_half_pos]
        exact ⟨le_rfl, fun _ => hq ▸ heven⟩
      · rw [hq, Nat.cast_one, sub_half, abs_of_pos one_half_pos]
        exact ⟨le_rfl, fun _ => hq ▸ heven⟩

/-- Any other whole number is farther from the fraction, or equally far and odd. -/
theorem roundHalfEven_nearest (num : Nat) {den : Nat} (hden : 0 < den) (n : Int) :
    |(roundHalfEven num den : ℚ) - num / den| < |(n : ℚ) - num / den| ∨
      n = roundHalfEven num den ∨
      (|(roundHalfEven num den : ℚ) - num / den| = |(n : ℚ) - num / den| ∧
        Even (roundHalfEven num den) ∧ Odd n) := by
  obtain ⟨hnear, htie⟩ := roundHalfEven_near num hden
  generalize roundHalfEven num den = q at *
  generalize (num : ℚ) / den = r at *
  by_cases hn : n = q
  · exact .inr (.inl hn)
  · have hapart : (1 : ℚ) ≤ |(n : ℚ) - q| := by
      exact_mod_cast Int.one_le_abs (sub_ne_zero.2 hn)
    have htriangle : |(n : ℚ) - q| ≤ |(n : ℚ) - r| + |(q : ℚ) - r| := by
      rw [abs_sub_comm (q : ℚ) r]
      exact abs_sub_le _ _ _
    rcases lt_or_eq_of_le (show |(q : ℚ) - r| ≤ |(n : ℚ) - r| by linarith) with hless | hequal
    · exact .inl hless
    · have hhalf : |(q : ℚ) - r| = 1 / 2 := by linarith
      have hstep : |(n : ℚ) - q| = 1 := by linarith
      have hstep' : |n - (q : Int)| = 1 := by exact_mod_cast hstep
      have heven := htie hhalf
      refine .inr (.inr ⟨hequal, heven, ?_⟩)
      rw [Nat.even_iff] at heven
      rw [Int.odd_iff]
      rcases (abs_eq zero_le_one).1 hstep' with hnext | hnext
      · omega
      · omega

theorem neg_le_scale (x : Binary64) : -1074 ≤ x.scale := by
  unfold scale
  omega

theorem isFinite_eq_false_iff (x : Binary64) : x.isFinite = false ↔ x.exponent.val = 2047 := by
  have hlt := x.exponent.isLt
  rw [← Bool.not_eq_true, isFinite_iff]
  omega

theorem ofRank_eq_infinity (negative : Bool) {rank : Nat} (h : 2047 * fractionCount ≤ rank) :
    ofRank negative rank = infinity negative := if_pos h

theorem exists_ofRank_eq (negative : Bool) {rank : Nat} (h : rank < 2047 * fractionCount) :
    ∃ (exponent : Fin 2048) (fraction : Fin fractionCount), exponent.val < 2047 ∧
      rank = exponent.val * fractionCount + fraction.val ∧
      ofRank negative rank = ⟨negative, exponent, fraction⟩ := by
  have hcount : 0 < fractionCount := by decide
  have hexponent : rank / fractionCount < 2047 := Nat.div_lt_of_lt_mul (by rwa [Nat.mul_comm])
  have hrank := (Nat.div_add_mod' rank fractionCount).symm
  refine ⟨⟨rank / fractionCount, by omega⟩, ⟨rank % fractionCount, Nat.mod_lt _ hcount⟩,
    hexponent, hrank, ?_⟩
  have hfields := ofRank_count negative ⟨rank / fractionCount, by omega⟩
    ⟨rank % fractionCount, Nat.mod_lt _ hcount⟩ hexponent
  rwa [← hrank] at hfields

/-- A count as place and significand, and the same count as exponent and fraction field. -/
theorem fields_of_place {place significand exponent fraction : Nat}
    (hfew : significand ≤ 2 * fractionCount) (hmany : place = 0 ∨ fractionCount ≤ significand)
    (hfraction : fraction < fractionCount)
    (h : place * fractionCount + significand = exponent * fractionCount + fraction) :
    (exponent = 0 ∧ place = 0 ∧ significand = fraction) ∨
      (exponent = place + 1 ∧ significand = fractionCount + fraction) ∨
      (exponent = place + 2 ∧ significand = 2 * fractionCount ∧ fraction = 0) := by
  simp only [fractionCount] at *
  omega

/-- The number counted by a significand in a place, where the place is the least of all or
the significand has all its bits. One bit more than fits moves to the next place. -/
theorem ofRank_place (negative : Bool) {place significand : Nat}
    (hfew : significand ≤ 2 * fractionCount) (hmany : place = 0 ∨ fractionCount ≤ significand)
    (hfinite : place * fractionCount + significand < 2047 * fractionCount) :
    ∃ x, ofRank negative (place * fractionCount + significand) = x ∧ x.isFinite = true ∧
      x.negative = negative ∧
      (x.significand : ℚ) * 2 ^ x.scale = significand * 2 ^ ((place : Int) - 1074) ∧
      (Even significand → Even x.significand) := by
  obtain ⟨exponent, fraction, hexponent, hrank, hx⟩ := exists_ofRank_eq negative hfinite
  refine ⟨_, hx, (isFinite_iff _).2 hexponent, rfl, ?_⟩
  rcases significand_cases ⟨negative, exponent, fraction⟩ with ⟨he, hs, hscale⟩ | ⟨he, hs, hscale⟩
  all_goals
    simp only at he hs hscale
    rw [hs, hscale]
    rcases fields_of_place hfew hmany fraction.isLt hrank with
      ⟨hzero, hplace, hsum⟩ | ⟨hplace, hsum⟩ | ⟨hplace, hsum, hfraction⟩
  · rw [hsum, hplace]
    exact ⟨rfl, id⟩
  · omega
  · omega
  · omega
  · have hexp : ((exponent.val : Int) - 1075) = place - 1074 := by omega
    rw [hexp, hsum]
    exact ⟨rfl, id⟩
  · have hexp : ((exponent.val : Int) - 1075) = place - 1074 + 1 := by omega
    rw [hexp, hsum, hfraction, zpow_add_one₀ two_ne_zero]
    refine ⟨by push_cast; ring, fun _ => by decide⟩

def units (r : ℚ) (place : Nat) : ℚ := r / 2 ^ ((place : Int) - 1074)

structure Placed (r : ℚ) (place significand : Nat) : Prop where
  near : |(significand : ℚ) - units r place| ≤ 1 / 2
  nearest : ∀ n : Int,
    |(significand : ℚ) - units r place| < |(n : ℚ) - units r place| ∨ n = significand ∨
      (|(significand : ℚ) - units r place| = |(n : ℚ) - units r place| ∧
        Even significand ∧ Odd n)
  less : units r place < 2 ^ 53
  full : place = 0 ∨ 2 ^ 52 ≤ units r place

theorem exists_placed (negative : Bool) {num den : Nat} (hnum : 0 < num) (hden : 0 < den) :
    ∃ place significand, Placed ((num : ℚ) / den) place significand ∧
      ofRatio negative num den = ofRank negative (place * fractionCount + significand) := by
  have hlog := floorLog2_eq_log hnum hden
  have hnum' : (0 : ℚ) < num := by exact_mod_cast hnum
  have hden' : (0 : ℚ) < den := by exact_mod_cast hden
  have hr : (0 : ℚ) < num / den := by positivity
  have hlow : (2 : ℚ) ^ floorLog2 num den ≤ num / den := by
    rw [hlog]
    exact Int.zpow_log_le_self Nat.one_lt_two hr
  have hhigh : (num : ℚ) / den < 2 ^ (floorLog2 num den + 1) := by
    rw [hlog]
    exact Int.lt_zpow_succ_log_self Nat.one_lt_two _
  let scale := max (floorLog2 num den - 52) (-1074)
  have hscale : -1074 ≤ scale := le_max_right _ _
  have hplace : ((scale + 1074).toNat : Int) - 1074 = scale := by omega
  have hunits : ((num * Nat.pow 2 (-scale).toNat : Nat) : ℚ) / (den * Nat.pow 2 scale.toNat : Nat) =
      units (num / den) (scale + 1074).toNat := by
    rw [units, hplace, two_zpow_eq_div, Nat.pow_eq, Nat.pow_eq]
    push_cast
    field_simp
  have hpositive : 0 < den * Nat.pow 2 scale.toNat := Nat.mul_pos hden (Nat.two_pow_pos _)
  obtain ⟨hnear, -⟩ := roundHalfEven_near (num * Nat.pow 2 (-scale).toNat) hpositive
  have hnearest := roundHalfEven_nearest (num * Nat.pow 2 (-scale).toNat) hpositive
  rw [hunits] at hnear hnearest
  refine ⟨(scale + 1074).toNat,
    roundHalfEven (num * Nat.pow 2 (-scale).toNat) (den * Nat.pow 2 scale.toNat),
    ⟨hnear, hnearest, ?_, ?_⟩, ?_⟩
  · rw [units, hplace, div_lt_iff₀ (by positivity), ← zpow_natCast, ← zpow_add₀ two_ne_zero]
    exact lt_of_lt_of_le hhigh (zpow_le_zpow_right₀ one_le_two (by omega))
  · rcases max_choice (floorLog2 num den - 52) (-1074) with hmax | hmax
    · rw [units, hplace, le_div_iff₀ (by positivity), ← zpow_natCast, ← zpow_add₀ two_ne_zero]
      exact .inr ((zpow_le_zpow_right₀ one_le_two (by omega)).trans hlow)
    · exact .inl (by omega)
  · rw [ofRatio, if_neg hnum.ne']

theorem overflowBound_eq : overflowBound = (2 ^ 53 - 1 / 2) * 2 ^ (971 : Int) := by
  have hhigh : (2 : ℚ) ^ 1024 = 2 ^ 53 * 2 ^ (971 : Int) := by
    rw [← zpow_natCast, ← zpow_natCast, ← zpow_add₀ two_ne_zero]
    rfl
  have hlow : (2 : ℚ) ^ 970 = 1 / 2 * 2 ^ (971 : Int) := by
    rw [← zpow_natCast, one_div, ← zpow_neg_one, ← zpow_add₀ two_ne_zero]
    rfl
  rw [overflowBound, hhigh, hlow, sub_mul]

theorem overflowBound_pos : 0 < overflowBound := by
  rw [overflowBound_eq]
  have hunits : (0 : ℚ) < 2 ^ 53 - 1 / 2 := by norm_num
  positivity

namespace Placed

variable {r : ℚ} {place significand : Nat}

theorem significand_le (h : Placed r place significand) : significand ≤ 2 * fractionCount := by
  have hnear := (abs_le.1 h.near).2
  have hless := h.less
  have hsucc : (significand : ℚ) < 2 ^ 53 + 1 := by linarith
  exact Nat.lt_succ_iff.1 (by exact_mod_cast hsucc)

theorem le_significand (h : Placed r place significand) :
    place = 0 ∨ fractionCount ≤ significand := by
  refine h.full.imp_right fun hfull => ?_
  have hnear := (abs_le.1 h.near).1
  have hsucc : (2 : ℚ) ^ 52 < significand + 1 := by linarith
  exact Nat.lt_succ_iff.1 (by exact_mod_cast hsucc)

theorem eq_units_mul (r : ℚ) (place : Nat) : r = units r place * 2 ^ ((place : Int) - 1074) := by
  rw [units, div_mul_cancel₀ _ (by positivity)]

/-- In the last place with finite numbers the largest significand is odd, so a number in the
middle between it and the next power of two goes up. -/
theorem lt_middle_iff (h : Placed r place significand) :
    units r place < 2 ^ 53 - 1 / 2 ↔ significand < 2 * fractionCount := by
  have hnear := abs_le.1 h.near
  have hfew := h.significand_le
  constructor
  · intro hlow
    have hsucc : (significand : ℚ) < 2 ^ 53 := by linarith
    exact_mod_cast hsucc
  · intro hlow
    by_contra hhigh
    have hle : significand + 1 ≤ 2 ^ 53 := hlow
    have hle' : (significand : ℚ) + 1 ≤ 2 ^ 53 := by exact_mod_cast hle
    have hmiddle : units r place = 2 ^ 53 - 1 / 2 := by linarith
    have hlast : (significand : ℚ) = 2 ^ 53 - 1 := by linarith
    have hodd : ¬ Even significand := by
      have hsum : (significand : ℚ) + 1 = 2 ^ 53 := by linarith
      have hsum' : significand + 1 = 2 ^ 53 := by exact_mod_cast hsum
      rw [Nat.even_iff]
      omega
    rcases h.nearest (2 ^ 53) with hless | hequal | ⟨-, heven, -⟩
    · rw [hmiddle, hlast] at hless
      norm_num at hless
    · have hequal' : (2 ^ 53 : Int) = significand := hequal
      omega
    · exact hodd heven

theorem count_lt_iff (h : Placed r place significand) :
    place * fractionCount + significand < 2047 * fractionCount ↔ r < overflowBound := by
  have hfew := h.significand_le
  have hr := eq_units_mul r place
  rw [overflowBound_eq]
  rcases lt_trichotomy place 2045 with hplace | hplace | hplace
  · have hscale : (2 : ℚ) ^ ((place : Int) - 1074) ≤ 2 ^ (970 : Int) :=
      zpow_le_zpow_right₀ one_le_two (by omega)
    have hlast : (2 : ℚ) ^ (971 : Int) = 2 * 2 ^ (970 : Int) := zpow_one_add₀ two_ne_zero 970
    have hlow : r < (2 ^ 53 - 1 / 2) * 2 ^ (971 : Int) :=
      calc r = units r place * 2 ^ ((place : Int) - 1074) := hr
        _ < 2 ^ 53 * 2 ^ ((place : Int) - 1074) := by
          have hless := h.less
          gcongr
        _ ≤ 2 ^ 53 * 2 ^ (970 : Int) := by gcongr
        _ ≤ (2 ^ 53 - 1 / 2) * 2 * 2 ^ (970 : Int) := by
          gcongr
          norm_num
        _ = (2 ^ 53 - 1 / 2) * 2 ^ (971 : Int) := by rw [hlast, mul_assoc]
    refine iff_of_true ?_ hlow
    simp only [fractionCount] at *
    omega
  · subst hplace
    have hscale : (((2045 : Nat) : Int) - 1074) = 971 := rfl
    rw [hr, hscale, mul_lt_mul_iff_left₀ (by positivity), h.lt_middle_iff]
    omega
  · have hscale : (2 : ℚ) ^ (972 : Int) ≤ 2 ^ ((place : Int) - 1074) :=
      zpow_le_zpow_right₀ one_le_two (by omega)
    have hfull := h.full.resolve_left (by omega)
    have hmany := h.le_significand.resolve_left (by omega)
    have hlast : (2 : ℚ) ^ (972 : Int) = 2 * 2 ^ (971 : Int) := zpow_one_add₀ two_ne_zero 971
    have hhigh : (2 ^ 53 - 1 / 2) * 2 ^ (971 : Int) ≤ r :=
      calc ((2 : ℚ) ^ 53 - 1 / 2) * 2 ^ (971 : Int) ≤ 2 ^ 52 * 2 * 2 ^ (971 : Int) := by
            gcongr
            norm_num
        _ = 2 ^ 52 * 2 ^ (972 : Int) := by rw [hlast, mul_assoc]
        _ ≤ units r place * 2 ^ ((place : Int) - 1074) := by gcongr
        _ = r := hr.symm
    refine iff_of_false ?_ (not_lt.2 hhigh)
    simp only [fractionCount] at *
    omega

/-- A float with a smaller last place than that of the fraction lies below the fractions of
that place. -/
theorem nearer_of_scale_lt (h : Placed r place significand) {y : Binary64}
    (hscale : y.scale < (place : Int) - 1074) {v : ℚ}
    (hv : |v| = y.significand * 2 ^ (y.scale - ((place : Int) - 1074))) :
    |(significand : ℚ) - units r place| < |v - units r place| := by
  have hlow := neg_le_scale y
  have hfull := h.full.resolve_left (by omega)
  have hsignificand : (y.significand : ℚ) < 2 ^ 53 := by exact_mod_cast significand_lt y
  have hpow : (2 : ℚ) ^ (y.scale - ((place : Int) - 1074)) ≤ 2 ^ (-1 : Int) :=
    zpow_le_zpow_right₀ one_le_two (by omega)
  have hbelow : v < 2 ^ 52 :=
    calc v ≤ |v| := le_abs_self v
      _ = y.significand * 2 ^ (y.scale - ((place : Int) - 1074)) := hv
      _ ≤ y.significand * 2 ^ (-1 : Int) := by gcongr
      _ < 2 ^ 53 * 2 ^ (-1 : Int) := by gcongr
      _ = 2 ^ 52 := by norm_num
  have hleast : |(significand : ℚ) - units r place| ≤ |((2 ^ 52 : Int) : ℚ) - units r place| := by
    rcases h.nearest (2 ^ 52) with hless | hequal | ⟨hequal, -⟩
    · exact hless.le
    · rw [hequal, Int.cast_natCast]
    · exact hequal.le
  rw [Int.cast_pow, Int.cast_ofNat, abs_sub_comm (2 ^ 52), abs_of_nonneg (sub_nonneg.2 hfull)]
    at hleast
  rw [abs_sub_comm v, abs_of_pos (by linarith : 0 < units r place - v)]
  linarith

/-- In units of the fraction's place the float is a whole number, and an odd one only if that
is its own last place. -/
theorem nearest_of_le_scale (h : Placed r place significand) {y : Binary64}
    (hscale : (place : Int) - 1074 ≤ y.scale) {sign : Int} {v : ℚ}
    (hv : v = sign * y.significand * 2 ^ (y.scale - ((place : Int) - 1074))) :
    |(significand : ℚ) - units r place| < |v - units r place| ∨ v = significand ∨
      (|(significand : ℚ) - units r place| = |v - units r place| ∧
        Even significand ∧ Odd y.significand) := by
  obtain ⟨k, hk⟩ := Int.eq_ofNat_of_zero_le (sub_nonneg.2 hscale)
  have hwhole : v = ((sign * y.significand * 2 ^ k : Int) : ℚ) := by
    rw [hv, hk]
    push_cast
    rw [zpow_natCast]
  rw [hwhole]
  rcases h.nearest (sign * y.significand * 2 ^ k) with hless | hequal | ⟨hequal, heven, hodd⟩
  · exact .inl hless
  · exact .inr (.inl (by exact_mod_cast hequal))
  · refine .inr (.inr ⟨hequal, heven, ?_⟩)
    have hproduct := (Int.odd_mul.1 hodd).1
    exact_mod_cast (Int.odd_mul.1 hproduct).2

/-- A number with few enough binary digits is a whole number of units of its place. -/
theorem significand_eq_units (h : Placed r place significand) {m : Nat} {k : Int}
    (hm : m < 2 ^ 53) (hk : -1074 ≤ k) (hr : r = m * 2 ^ k) :
    (significand : ℚ) = units r place := by
  have hunits : units r place = m * 2 ^ (k - ((place : Int) - 1074)) := by
    rw [units, hr, mul_div_assoc, ← zpow_sub₀ two_ne_zero]
  have hplace : (place : Int) - 1074 ≤ k := by
    by_contra hless
    have hfull := h.full.resolve_left (by omega)
    have hm' : (m : ℚ) < 2 ^ 53 := by exact_mod_cast hm
    have hpow : (2 : ℚ) ^ (k - ((place : Int) - 1074)) ≤ 2 ^ (-1 : Int) :=
      zpow_le_zpow_right₀ one_le_two (by omega)
    have hsmall : units r place < 2 ^ 52 :=
      calc units r place = m * 2 ^ (k - ((place : Int) - 1074)) := hunits
        _ ≤ m * 2 ^ (-1 : Int) := by gcongr
        _ < 2 ^ 53 * 2 ^ (-1 : Int) := by gcongr
        _ = 2 ^ 52 := by norm_num
    linarith
  obtain ⟨n, hn⟩ := Int.eq_ofNat_of_zero_le (sub_nonneg.2 hplace)
  have hwhole : units r place = ((m * 2 ^ n : Int) : ℚ) := by
    rw [hunits, hn]
    push_cast
    rw [zpow_natCast]
  have hnear := h.near
  rw [hwhole] at hnear ⊢
  have hclose : |(significand : Int) - m * 2 ^ n| < 1 := by
    have hhalf : |(significand : ℚ) - ((m * 2 ^ n : Int) : ℚ)| < 1 := by linarith
    exact_mod_cast hhalf
  have hequal := sub_eq_zero.1 (Int.abs_lt_one_iff.1 hclose)
  exact_mod_cast hequal

end Placed

theorem abs_signOf_mul (negative : Bool) (q : ℚ) : |signOf negative * q| = |q| := by
  cases negative with
  | true => simp [signOf]
  | false => simp [signOf]

theorem signOf_mul_signOf_mul (negative : Bool) (q : ℚ) :
    signOf negative * (signOf negative * q) = q := by
  cases negative with
  | true => simp [signOf]
  | false => simp [signOf]

theorem value_zero (negative : Bool) : (zero negative).value = 0 := by
  have hsignificand : (zero negative).significand = 0 := rfl
  rw [value, hsignificand, Nat.cast_zero, mul_zero, zero_mul]

theorem isNearest_zero (negative : Bool) : (zero negative).IsNearest 0 := by
  refine ⟨rfl, fun y _ => ?_⟩
  rw [value_zero, sub_zero, sub_zero, abs_zero, abs_pos]
  by_cases hy : y.value = 0
  · exact .inr (.inl hy)
  · exact .inl hy

theorem isNearest_of_placed {x : Binary64} {r : ℚ} {place significand : Nat}
    (h : Placed r place significand) (hfinite : x.isFinite = true)
    (hx : (x.significand : ℚ) * 2 ^ x.scale = significand * 2 ^ ((place : Int) - 1074))
    (heven : Even significand → Even x.significand) :
    x.IsNearest (signOf x.negative * r) := by
  refine ⟨hfinite, fun y _ => ?_⟩
  have hunit : (0 : ℚ) < 2 ^ ((place : Int) - 1074) := by positivity
  have hr := Placed.eq_units_mul r place
  have hvalue : x.value = signOf x.negative * (significand * 2 ^ ((place : Int) - 1074)) := by
    rw [value, mul_assoc, hx]
  -- `v` is the other float in units of the fraction's place, seen from the sign of `x`.
  let v := signOf x.negative * y.value / 2 ^ ((place : Int) - 1074)
  have hy : y.value = signOf x.negative * (v * 2 ^ ((place : Int) - 1074)) := by
    rw [div_mul_cancel₀ _ hunit.ne', signOf_mul_signOf_mul]
  have hdistance : |x.value - signOf x.negative * r| =
      |significand - units r place| * 2 ^ ((place : Int) - 1074) := by
    rw [hvalue, ← mul_sub, abs_signOf_mul, ← abs_of_pos hunit, ← abs_mul, sub_mul,
      abs_of_pos hunit, ← hr]
  have hdistance' : |y.value - signOf x.negative * r| =
      |v - units r place| * 2 ^ ((place : Int) - 1074) := by
    rw [hy, ← mul_sub, abs_signOf_mul, ← abs_of_pos hunit, ← abs_mul, sub_mul,
      abs_of_pos hunit, ← hr]
  have hv : v = (signOf x.negative * signOf y.negative : Int) * y.significand *
      2 ^ (y.scale - ((place : Int) - 1074)) := by
    rw [zpow_sub₀ (two_ne_zero : (2 : ℚ) ≠ 0)]
    simp only [v, value]
    push_cast
    ring
  have hcases : |(significand : ℚ) - units r place| < |v - units r place| ∨ v = significand ∨
      (|(significand : ℚ) - units r place| = |v - units r place| ∧
        Even significand ∧ Odd y.significand) := by
    rcases lt_or_ge y.scale ((place : Int) - 1074) with hscale | hscale
    · refine .inl (h.nearer_of_scale_lt hscale ?_)
      rw [hv, Int.cast_mul, mul_assoc, mul_assoc, abs_signOf_mul, abs_signOf_mul,
        abs_of_nonneg (by positivity)]
    · exact h.nearest_of_le_scale hscale hv
  rw [hdistance, hdistance', mul_lt_mul_iff_left₀ hunit, mul_left_inj' hunit.ne']
  refine hcases.imp_right (Or.imp (fun hequal => ?_) fun ⟨hequal, hsignificand, hodd⟩ =>
    ⟨hequal, heven hsignificand, hodd⟩)
  rw [hy, hvalue, hequal]

/-- A fraction below the bound is rounded to the nearest finite number. -/
theorem ofRatio_isNearest (negative : Bool) {num den : Nat} (hden : 0 < den)
    (h : (num : ℚ) / den < overflowBound) :
    (ofRatio negative num den).IsNearest (signOf negative * (num / den)) := by
  rcases Nat.eq_zero_or_pos num with rfl | hnum
  · have hzero : ofRatio negative 0 den = zero negative := if_pos rfl
    rw [hzero, Nat.cast_zero, zero_div, mul_zero]
    exact isNearest_zero negative
  · obtain ⟨place, significand, hplaced, hcount⟩ := exists_placed negative hnum hden
    obtain ⟨x, hx, hfinite, rfl, hvalue, heven⟩ := ofRank_place negative hplaced.significand_le
      hplaced.le_significand (hplaced.count_lt_iff.2 h)
    rw [hcount, hx]
    exact isNearest_of_placed hplaced hfinite hvalue heven

/-- A fraction with few enough binary digits is not changed by rounding. -/
theorem value_ofRatio (negative : Bool) {num den : Nat} (hden : 0 < den)
    (h : (num : ℚ) / den < overflowBound) {m : Nat} {k : Int} (hm : m < 2 ^ 53)
    (hk : -1074 ≤ k) (hr : (num : ℚ) / den = m * 2 ^ k) :
    (ofRatio negative num den).value = signOf negative * (num / den) := by
  rcases Nat.eq_zero_or_pos num with rfl | hnum
  · have hzero : ofRatio negative 0 den = zero negative := if_pos rfl
    rw [hzero, value_zero, Nat.cast_zero, zero_div, mul_zero]
  · obtain ⟨place, significand, hplaced, hcount⟩ := exists_placed negative hnum hden
    obtain ⟨x, hx, -, rfl, hvalue, -⟩ := ofRank_place negative hplaced.significand_le
      hplaced.le_significand (hplaced.count_lt_iff.2 h)
    rw [hcount, hx, value, mul_assoc, hvalue, hplaced.significand_eq_units hm hk hr,
      ← Placed.eq_units_mul]

theorem ofRatio_eq_infinity (negative : Bool) {num den : Nat} (hden : 0 < den)
    (h : overflowBound ≤ (num : ℚ) / den) : ofRatio negative num den = infinity negative := by
  have hnum : 0 < num := by
    apply Nat.pos_of_ne_zero
    rintro rfl
    rw [Nat.cast_zero, zero_div] at h
    exact absurd overflowBound_pos (not_lt.2 h)
  obtain ⟨place, significand, hplaced, hcount⟩ := exists_placed negative hnum hden
  rw [hcount]
  exact ofRank_eq_infinity negative (not_lt.1 (mt hplaced.count_lt_iff.1 (not_lt.2 h)))

theorem IsNearest.value_eq {x y : Binary64} {r : ℚ} (hx : x.IsNearest r) (hy : y.IsNearest r) :
    x.value = y.value := by
  obtain ⟨hfinite, hx⟩ := hx
  obtain ⟨hfinite', hy⟩ := hy
  rcases hx y hfinite' with hless | hequal | ⟨hequal, heven, -⟩
  · rcases hy x hfinite with hless' | hequal' | ⟨hequal', -⟩
    · exact absurd hless (not_lt.2 hless'.le)
    · exact hequal'
    · exact absurd hless hequal'.not_gt
  · exact hequal.symm
  · rcases hy x hfinite with hless' | hequal' | ⟨-, -, hodd⟩
    · exact absurd hequal hless'.ne'
    · exact hequal'
    · exact absurd heven (Nat.not_even_iff_odd.2 hodd)

theorem abs_value (x : Binary64) : |x.value| = x.numerator / x.denominator := by
  rw [value, mul_assoc, abs_signOf_mul, magnitude_eq, abs_of_nonneg (by positivity)]

theorem value_of_isZero {x : Binary64} (h : x.isZero = true) : x.value = 0 := by
  rw [fields_of_isZero h, value_zero]

theorem value_neg_iff {x : Binary64} (h : x.isZero = false) : x.value < 0 ↔ x.negative = true := by
  have hsignificand : (0 : ℚ) < x.significand := by exact_mod_cast significand_pos h
  have hpos : (0 : ℚ) < x.significand * 2 ^ x.scale := by positivity
  rw [value, mul_assoc]
  cases x.negative with
  | true => simp [signOf, hpos]
  | false => simp [signOf, hpos.le]

theorem value_ne_zero {x : Binary64} (h : x.isZero = false) : x.value ≠ 0 := by
  have hsignificand : (0 : ℚ) < x.significand := by exact_mod_cast significand_pos h
  rw [← abs_ne_zero, value, mul_assoc, abs_signOf_mul]
  positivity

/-- Floats other than zero with the same number are the same. -/
theorem eq_of_value_eq {x y : Binary64} (hx : x.isFinite = true) (hy : y.isFinite = true)
    (hzero : x.isZero = false) (hzero' : y.isZero = false) (h : x.value = y.value) : x = y := by
  have hden : (x.denominator : ℚ) ≠ 0 := by exact_mod_cast x.denominator_pos.ne'
  have hden' : (y.denominator : ℚ) ≠ 0 := by exact_mod_cast y.denominator_pos.ne'
  have hratio : x.numerator * y.denominator = y.numerator * x.denominator := by
    have habs := congrArg abs h
    rw [abs_value, abs_value, div_eq_div_iff hden hden'] at habs
    exact_mod_cast habs
  have hsign : x.negative = y.negative := by
    rw [Bool.eq_iff_iff, ← value_neg_iff hzero, ← value_neg_iff hzero', h]
  rw [← ofRatio_magnitude hx, ← ofRatio_magnitude hy, hsign]
  exact ofRatio_congr _ x.denominator_pos y.denominator_pos hratio

theorem sameNumber_iff {x y : Binary64} (hx : x.isFinite = true) (hy : y.isFinite = true) :
    x.sameNumber y = true ↔ x.value = y.value := by
  simp only [sameNumber, not_isNaN hx, not_isNaN hy, Bool.not_false, Bool.true_and, Bool.or_eq_true,
    Bool.and_eq_true, decide_eq_true_eq]
  constructor
  · rintro (rfl | ⟨hzero, hzero'⟩)
    · rfl
    · rw [value_of_isZero hzero, value_of_isZero hzero']
  · intro h
    cases hzero : x.isZero with
    | true =>
      cases hzero' : y.isZero with
      | true => exact .inr ⟨rfl, rfl⟩
      | false => exact absurd (h ▸ value_of_isZero hzero) (value_ne_zero hzero')
    | false =>
      cases hzero' : y.isZero with
      | true => exact absurd (h.trans (value_of_isZero hzero')) (value_ne_zero hzero)
      | false => exact .inl (eq_of_value_eq hx hy hzero hzero' h)

theorem signOf_mul_natAbs (i : Int) : (signOf (i < 0) : ℚ) * ((i.natAbs : Nat) / (1 : Nat)) = i := by
  have hsign : signOf (i < 0) * (i.natAbs : Int) = i := by
    unfold signOf
    split
    · next hi =>
      have hi' := of_decide_eq_true hi
      omega
    · next hi =>
      have hi' := mt decide_eq_true hi
      omega
  rw [Nat.cast_one, div_one, ← Int.cast_natCast, ← Int.cast_mul, hsign]

/-- What a whole number of any length is rounded to. -/
theorem ofInt_cases (i : Int) :
    (|(i : ℚ)| < overflowBound ∧ (ofInt i).IsNearest i) ∨
      (overflowBound ≤ |(i : ℚ)| ∧ ofInt i = infinity (i < 0)) := by
  have habs : ((i.natAbs : Nat) : ℚ) / (1 : Nat) = |(i : ℚ)| := by
    rw [Nat.cast_one, div_one, ← Int.cast_abs, Int.abs_eq_natAbs, Int.cast_natCast]
  rcases lt_or_ge |(i : ℚ)| overflowBound with hbound | hbound
  · have hnearest := ofRatio_isNearest (i < 0) Nat.one_pos (by rwa [habs])
    rw [signOf_mul_natAbs] at hnearest
    exact .inl ⟨hbound, hnearest⟩
  · exact .inr ⟨hbound, ofRatio_eq_infinity (i < 0) Nat.one_pos (by rwa [habs])⟩

def magnitude (d : Text.Decimal) : ℚ := d.digits * 10 ^ d.exponent

theorem ten_pow_le_magnitude {d : Text.Decimal} (h : d.digits ≠ 0) :
    (10 : ℚ) ^ (d.point - 1) ≤ magnitude d := by
  have hcount := digitCount_pos d.digits
  have hpoint : d.point - 1 = ((Text.digitCount d.digits - 1 : Nat) : Int) + d.exponent := by
    rw [Text.Decimal.point]
    omega
  have hdigits : 10 ^ (Text.digitCount d.digits - 1) ≤ d.digits := by
    by_contra hless
    rcases Nat.eq_zero_or_pos (Text.digitCount d.digits - 1) with hzero | hpos
    · rw [hzero] at hless
      omega
    · have hfew := (digitCount_le_iff hpos).2 (not_le.1 hless)
      omega
  rw [hpoint, zpow_add₀ (by norm_num), zpow_natCast, magnitude]
  gcongr
  exact_mod_cast hdigits

theorem magnitude_lt_ten_pow (d : Text.Decimal) : magnitude d < (10 : ℚ) ^ d.point := by
  have hdigits : (d.digits : ℚ) < 10 ^ Text.digitCount d.digits := by
    exact_mod_cast lt_pow_digitCount d.digits
  rw [Text.Decimal.point, zpow_add₀ (by norm_num), zpow_natCast, magnitude]
  gcongr

/-- Below half of the least positive float zero is the nearest one. -/
theorem zero_isNearest (negative : Bool) {r : ℚ} (hr : 0 ≤ r) (h : r < 2 ^ (-1075 : Int)) :
    (zero negative).IsNearest (signOf negative * r) := by
  refine ⟨rfl, fun y _ => ?_⟩
  rw [value_zero]
  by_cases hy : y.significand = 0
  · refine .inr (.inl ?_)
    rw [value, hy, Nat.cast_zero, mul_zero, zero_mul]
  · refine .inl ?_
    have hleast : 2 * 2 ^ (-1075 : Int) ≤ |y.value| :=
      calc (2 : ℚ) * 2 ^ (-1075 : Int) = 1 * 2 ^ (-1074 : Int) := by
            rw [one_mul]
            exact (zpow_one_add₀ two_ne_zero (-1075)).symm
        _ ≤ y.significand * 2 ^ y.scale := by
          gcongr
          · exact_mod_cast Nat.one_le_iff_ne_zero.2 hy
          · exact one_le_two
          · exact neg_le_scale y
        _ = |y.value| := by
          rw [value, mul_assoc, abs_signOf_mul, abs_of_nonneg (by positivity)]
    have hdistance := abs_sub_abs_le_abs_sub y.value (signOf negative * r)
    rw [abs_signOf_mul, abs_of_nonneg hr] at hdistance
    rw [zero_sub, abs_neg, abs_signOf_mul, abs_of_nonneg hr]
    linarith

theorem two_pow_le_overflowBound : (2 : ℚ) ^ (-1075 : Int) ≤ overflowBound :=
  calc (2 : ℚ) ^ (-1075 : Int) ≤ 1 * 2 ^ (971 : Int) := by
        rw [one_mul]
        exact zpow_le_zpow_right₀ one_le_two (by decide)
    _ ≤ (2 ^ 53 - 1 / 2) * 2 ^ (971 : Int) := by
      gcongr
      norm_num
    _ = overflowBound := overflowBound_eq.symm

theorem overflowBound_lt : overflowBound < (10 : ℚ) ^ (309 : Int) := by
  have hpow : (2 : ℚ) ^ 1024 < 10 ^ 309 := by exact_mod_cast two_pow_lt_ten_pow
  have hpos : (0 : ℚ) < 2 ^ 970 := by positivity
  have hcast : (10 : ℚ) ^ (309 : Int) = 10 ^ 309 := zpow_natCast 10 309
  rw [overflowBound, hcast]
  exact (sub_lt_self _ hpos).trans hpow

theorem ten_pow_lt_two_pow : (10 : ℚ) ^ (-325 : Int) < 2 ^ (-1075 : Int) := by
  have hpow : 2 ^ 1075 < 10 ^ 325 := by decide +kernel
  have hpow' : (2 : ℚ) ^ 1075 < 10 ^ 325 := by exact_mod_cast hpow
  rw [zpow_neg, zpow_neg]
  exact inv_strictAnti₀ (by positivity) hpow'

/-- What a decimal of any length and any exponent is rounded to. -/
theorem ofDecimal_cases (d : Text.Decimal) :
    (magnitude d < overflowBound ∧ (ofDecimal d).IsNearest (signOf d.negative * magnitude d)) ∨
      (overflowBound ≤ magnitude d ∧ ofDecimal d = infinity d.negative) := by
  unfold ofDecimal
  split
  · next hzero =>
    have hmagnitude : magnitude d = 0 := by rw [magnitude, hzero, Nat.cast_zero, zero_mul]
    rw [hmagnitude, mul_zero]
    exact .inl ⟨overflowBound_pos, isNearest_zero _⟩
  · next hsome =>
    have hlow := ten_pow_le_magnitude hsome
    have hhigh := magnitude_lt_ten_pow d
    split
    · next hpoint =>
      refine .inr ⟨?_, rfl⟩
      exact (overflowBound_lt.le.trans (zpow_le_zpow_right₀ (by norm_num) (by omega))).trans hlow
    · split
      · next hpoint =>
        have hsmall : magnitude d < 2 ^ (-1075 : Int) :=
          (hhigh.trans_le (zpow_le_zpow_right₀ (by norm_num) (by omega))).trans ten_pow_lt_two_pow
        have hpositive : 0 ≤ magnitude d := by
          unfold magnitude
          positivity
        exact .inl ⟨hsmall.trans_le two_pow_le_overflowBound,
          zero_isNearest d.negative hpositive hsmall⟩
      · have hratio : ((d.digits * Nat.pow 10 d.exponent.toNat : Nat) : ℚ) /
            (Nat.pow 10 (-d.exponent).toNat : Nat) = magnitude d := by
          obtain ⟨n, hn | hn⟩ := d.exponent.eq_nat_or_neg
          · simp [magnitude, hn]
          · simp [magnitude, hn, div_eq_mul_inv]
        have hden : 0 < Nat.pow 10 (-d.exponent).toNat := ten_pow_pos _
        rcases lt_or_ge (magnitude d) overflowBound with hbound | hbound
        · have hnearest := ofRatio_isNearest d.negative hden (by rwa [hratio])
          rw [hratio] at hnearest
          exact .inl ⟨hbound, hnearest⟩
        · exact .inr ⟨hbound, ofRatio_eq_infinity d.negative hden (by rwa [hratio])⟩

end Sift.Binary64

import Sift.Constraint
import Sift.Proofs.NearestNumber

/-!
# Integers beside floats

An integer has the same value as a float if the float is the nearest one to it. That is
numeric equality for the integers that some float is equal to, those with at most 53 binary
digits before the zeros at their end. Any other integer has the same value as a float beside
it, and two of them may share that float.

`number?` is the number that a literal stands for, and an infinity and NaN stand for none.
With `EqualNumbers` an infinity is equal to itself all the same.
-/

namespace Sift.Literal

def number? : Literal → Option ℚ
  | .int i => some i.toInt
  | .float x => if x.isFinite then some x.value else none
  | _ => none

def isNumber : Literal → Bool
  | .int _ | .float _ => true
  | _ => false

def EqualNumbers (l m : Literal) : Prop :=
  (∃ q, l.number? = some q ∧ m.number? = some q) ∨
    ∃ negative, l = .float (.infinity negative) ∧ m = .float (.infinity negative)

/-- An integer has few enough binary digits for a float; other literals are as they are. -/
def IsExact : Literal → Prop
  | .int i => ∃ m k : Nat, m < 2 ^ 53 ∧ i.toInt.natAbs = m * 2 ^ k
  | _ => True

end Sift.Literal

namespace Sift.Binary64

theorem natAbs_lt_overflowBound (i : Int64) :
    ((i.toInt.natAbs : Nat) : ℚ) / (1 : Nat) < overflowBound := by
  have hlow := i.le_toInt
  have hhigh := i.toInt_lt
  have hsmall : i.toInt.natAbs < 2 ^ 64 := by omega
  have hsmall' : ((i.toInt.natAbs : Nat) : ℚ) < 2 ^ 64 := by exact_mod_cast hsmall
  have hpow : (2 : ℚ) ^ 64 ≤ 2 ^ (971 : Int) := by
    have hcast : (2 : ℚ) ^ (64 : Int) = 2 ^ 64 := zpow_natCast 2 64
    rw [← hcast]
    exact zpow_le_zpow_right₀ one_le_two (by decide)
  rw [Nat.cast_one, div_one, overflowBound_eq]
  refine lt_of_lt_of_le (hsmall'.trans_le hpow) (le_mul_of_one_le_left (by positivity) ?_)
  norm_num

theorem ofInt_isNearest (i : Int64) : (ofInt i.toInt).IsNearest i.toInt := by
  have hnearest := ofRatio_isNearest (i.toInt < 0) Nat.one_pos (natAbs_lt_overflowBound i)
  rwa [signOf_mul_natAbs] at hnearest

/-- A float is equal to an integer only if the integer has few enough binary digits. -/
theorem isExact_of_value_eq {x : Binary64} {i : Int64} (h : x.value = i.toInt) :
    (Literal.int i).IsExact := by
  have habs : ((i.toInt.natAbs : Nat) : ℚ) = x.significand * 2 ^ x.scale := by
    have hequal := congrArg abs h
    rw [value, mul_assoc, abs_signOf_mul, abs_of_nonneg (by positivity)] at hequal
    rw [hequal, ← Int.cast_abs, Int.abs_eq_natAbs, Int.cast_natCast]
  rcases le_total 0 x.scale with hscale | hscale
  · obtain ⟨k, hk⟩ := Int.eq_ofNat_of_zero_le hscale
    refine ⟨x.significand, k, significand_lt x, ?_⟩
    rw [hk] at habs
    exact_mod_cast habs
  · refine ⟨i.toInt.natAbs, 0, ?_, (Nat.mul_one _).symm⟩
    refine lt_of_le_of_lt ?_ (significand_lt x)
    have hle : ((i.toInt.natAbs : Nat) : ℚ) ≤ x.significand := by
      rw [habs]
      exact mul_le_of_le_one_right (by positivity) (zpow_le_one_of_nonpos₀ one_le_two hscale)
    exact_mod_cast hle

theorem value_ofInt_iff (i : Int64) :
    (ofInt i.toInt).value = i.toInt ↔ (Literal.int i).IsExact := by
  refine ⟨isExact_of_value_eq, fun ⟨m, k, hm, hk⟩ => ?_⟩
  have hr : ((i.toInt.natAbs : Nat) : ℚ) / (1 : Nat) = m * 2 ^ (k : Int) := by
    rw [hk]
    push_cast
    rw [div_one, zpow_natCast]
  have hvalue := value_ofRatio (i.toInt < 0) Nat.one_pos (natAbs_lt_overflowBound i) hm
    (by omega) hr
  rwa [signOf_mul_natAbs] at hvalue

theorem sameNumber_eq_true_iff (x y : Binary64) : x.sameNumber y = true ↔
    x.isNaN = false ∧ y.isNaN = false ∧ (x = y ∨ x.isZero = true ∧ y.isZero = true) := by
  simp only [sameNumber, Bool.and_eq_true, Bool.or_eq_true, Bool.not_eq_true', decide_eq_true_eq,
    and_assoc]

theorem sameNumber_symm {x y : Binary64} (h : x.sameNumber y = true) : y.sameNumber x = true := by
  rw [sameNumber_eq_true_iff] at h ⊢
  exact ⟨h.2.1, h.1, h.2.2.imp Eq.symm And.symm⟩

theorem sameNumber_trans {x y z : Binary64} (h : x.sameNumber y = true)
    (h' : y.sameNumber z = true) : x.sameNumber z = true := by
  rw [sameNumber_eq_true_iff] at h h' ⊢
  refine ⟨h.1, h'.2.1, ?_⟩
  rcases h.2.2 with rfl | hzero
  · exact h'.2.2
  · rcases h'.2.2 with rfl | hzero'
    · exact .inr hzero
    · exact .inr ⟨hzero.1, hzero'.2⟩

theorem isZero_of_isFinite_eq_false {x : Binary64} (h : x.isFinite = false) : x.isZero = false := by
  have hexponent := (isFinite_eq_false_iff x).1 h
  have hne : x.exponent ≠ 0 := fun hzero => by
    rw [hzero] at hexponent
    exact absurd hexponent (by decide)
  simp [isZero, hne]

theorem eq_infinity_of_not_isNaN {x : Binary64} (h : x.isFinite = false) (hnan : x.isNaN = false) :
    x = infinity x.negative := by
  obtain ⟨negative, exponent, fraction⟩ := x
  have hlast : exponent = 2047 := Fin.ext ((isFinite_eq_false_iff _).1 h)
  have hfraction : fraction = 0 := by simpa [isNaN, hlast] using hnan
  rw [hlast, hfraction, infinity]

theorem IsNearest.zero_of_zero {b c : Bool} {r : ℚ} (h : (zero b).IsNearest r) :
    (zero c).IsNearest r := by
  refine ⟨rfl, fun y hy => ?_⟩
  have hy' := h.2 y hy
  rw [value_zero] at hy' ⊢
  exact hy'

/-- The floats of the same value as an integer are the nearest ones to it. -/
theorem sameNumber_ofInt_iff (i : Int64) (x : Binary64) :
    (ofInt i.toInt).sameNumber x = true ↔ x.IsNearest i.toInt := by
  have hnearest := ofInt_isNearest i
  constructor
  · intro h
    rcases ((sameNumber_eq_true_iff _ x).1 h).2.2 with hequal | ⟨hzero, hzero'⟩
    · rwa [← hequal]
    · rw [fields_of_isZero hzero] at hnearest
      rw [fields_of_isZero hzero']
      exact hnearest.zero_of_zero
  · intro h
    exact (sameNumber_iff hnearest.1 h.1).2 (hnearest.value_eq h)

end Sift.Binary64

namespace Sift.Literal

def asFloat? : Literal → Option Binary64
  | .int i => some (Binary64.ofInt i.toInt)
  | .float x => some x
  | _ => none

/-- Numbers that are the same as floats, and literals of other kinds that are the same. -/
def SameFloat (l m : Literal) : Prop :=
  (∃ x y, l.asFloat? = some x ∧ m.asFloat? = some y ∧ x.sameNumber y = true) ∨
    (l = m ∧ l.asFloat? = none)

theorem SameFloat.symm {l m : Literal} (h : SameFloat l m) : SameFloat m l := by
  rcases h with ⟨x, y, hx, hy, hsame⟩ | ⟨rfl, hnone⟩
  · exact .inl ⟨y, x, hy, hx, Binary64.sameNumber_symm hsame⟩
  · exact .inr ⟨rfl, hnone⟩

theorem SameFloat.trans {l m n : Literal} (h : SameFloat l m) (h' : SameFloat m n) :
    SameFloat l n := by
  rcases h with ⟨x, y, hx, hy, hsame⟩ | ⟨rfl, -⟩
  · rcases h' with ⟨y', z, hy', hz, hsame'⟩ | ⟨rfl, -⟩
    · obtain rfl := Option.some.inj (hy.symm.trans hy')
      exact .inl ⟨x, z, hx, hz, Binary64.sameNumber_trans hsame hsame'⟩
    · exact .inl ⟨x, y, hx, hy, hsame⟩
  · exact h'

/-- Two integers are compared as they are, and otherwise numbers are compared as floats. -/
theorem sameValue_iff (l m : Literal) : sameValue l m = true ↔
    SameFloat l m ∧ ∀ i j, l = .int i → m = .int j → i = j := by
  cases l with
  | int i =>
    cases m with
    | int j =>
      have hself : (Binary64.ofInt i.toInt).sameNumber (Binary64.ofInt i.toInt) = true :=
        (Binary64.sameNumber_ofInt_iff i _).2 (Binary64.ofInt_isNearest i)
      simp only [sameValue, SameFloat, asFloat?, decide_eq_true_eq, int.injEq]
      constructor
      · rintro rfl
        refine ⟨.inl ⟨_, _, rfl, rfl, hself⟩, ?_⟩
        rintro _ _ rfl rfl
        rfl
      · exact fun h => h.2 i j rfl rfl
    | float y => simp [sameValue, SameFloat, asFloat?]
    | _ => simp [sameValue, SameFloat, asFloat?]
  | float x =>
    cases m with
    | int j =>
      have hswap : (Binary64.ofInt j.toInt).sameNumber x = true ↔
          x.sameNumber (Binary64.ofInt j.toInt) = true :=
        ⟨Binary64.sameNumber_symm, Binary64.sameNumber_symm⟩
      simp [sameValue, SameFloat, asFloat?, hswap]
    | float y => simp [sameValue, SameFloat, asFloat?]
    | _ => simp [sameValue, SameFloat, asFloat?]
  | _ => cases m <;> simp [sameValue, SameFloat, asFloat?]

theorem sameValue_comm (l m : Literal) : sameValue l m = sameValue m l := by
  rw [Bool.eq_iff_iff, sameValue_iff, sameValue_iff]
  constructor
  · rintro ⟨hfloat, hint⟩
    exact ⟨hfloat.symm, fun i j hm hl => (hint j i hl hm).symm⟩
  · rintro ⟨hfloat, hint⟩
    exact ⟨hfloat.symm, fun i j hl hm => (hint j i hm hl).symm⟩

/-- Sameness passes through a third literal, unless it leads from an integer to another. -/
theorem sameValue_trans_iff {l m n : Literal} (hlm : sameValue l m = true)
    (hmn : sameValue m n = true) :
    sameValue l n = true ↔ ∀ i j, l = .int i → n = .int j → i = j := by
  have hfloat := ((sameValue_iff l m).1 hlm).1.trans ((sameValue_iff m n).1 hmn).1
  rw [sameValue_iff]
  exact and_iff_right hfloat

/-- The law of numeric equality holds beside an integer exactly if it is exact. -/
theorem isExact_iff (i : Int64) :
    (∀ x, sameValue (.int i) (.float x) = true ↔ x.isFinite = true ∧ x.value = i.toInt) ↔
      (Literal.int i).IsExact := by
  have hnearest := Binary64.ofInt_isNearest i
  constructor
  · intro h
    have hsame : sameValue (.int i) (.float (Binary64.ofInt i.toInt)) = true :=
      (Binary64.sameNumber_ofInt_iff i _).2 hnearest
    exact Binary64.isExact_of_value_eq ((h _).1 hsame).2
  · intro h x
    have hvalue := (Binary64.value_ofInt_iff i).2 h
    refine (Binary64.sameNumber_ofInt_iff i x).trans ⟨fun hx => ?_, fun ⟨hfinite, hx⟩ => ?_⟩
    · exact ⟨hx.1, (hx.value_eq hnearest).trans hvalue⟩
    · refine (Binary64.sameNumber_ofInt_iff i x).1 ((Binary64.sameNumber_iff hnearest.1 hfinite).2 ?_)
      rw [hvalue, hx]

theorem equalNumbers_comm (l m : Literal) : l.EqualNumbers m ↔ m.EqualNumbers l := by
  unfold EqualNumbers
  simp only [and_comm]

theorem equalNumbers_int_float {i : Int64} (h : (Literal.int i).IsExact) (x : Binary64) :
    sameValue (.int i) (.float x) = true ↔ (Literal.int i).EqualNumbers (.float x) := by
  rw [(isExact_iff i).2 h x]
  simp only [EqualNumbers, number?, reduceCtorEq, false_and, exists_false, or_false]
  cases x.isFinite with
  | true => simp [eq_comm]
  | false => simp

theorem equalNumbers_float_float (x y : Binary64) :
    sameValue (.float x) (.float y) = true ↔ (Literal.float x).EqualNumbers (.float y) := by
  simp only [sameValue, EqualNumbers, number?, float.injEq]
  constructor
  · intro h
    obtain ⟨hnan, -, hequal⟩ := (Binary64.sameNumber_eq_true_iff x y).1 h
    cases hx : x.isFinite with
    | true =>
      have hy : y.isFinite = true := by
        rcases hequal with rfl | ⟨-, hzero⟩
        · exact hx
        · rw [Binary64.fields_of_isZero hzero]
          rfl
      have hvalue := (Binary64.sameNumber_iff hx hy).1 h
      exact .inl ⟨x.value, rfl, by rw [if_pos hy, hvalue]⟩
    | false =>
      have hzero := Binary64.isZero_of_isFinite_eq_false hx
      have hinfinity := Binary64.eq_infinity_of_not_isNaN hx hnan
      rcases hequal with rfl | ⟨hzero', -⟩
      · exact .inr ⟨_, hinfinity, hinfinity⟩
      · exact absurd hzero' (Bool.eq_false_iff.1 hzero)
  · rintro (⟨q, hx, hy⟩ | ⟨negative, rfl, rfl⟩)
    · rw [Option.ite_none_right_eq_some] at hx hy
      obtain ⟨hfinite, hvalue⟩ := hx
      obtain ⟨hfinite', hvalue'⟩ := hy
      rw [Binary64.sameNumber_iff hfinite hfinite', Option.some.inj hvalue, Option.some.inj hvalue']
    · exact (Binary64.sameNumber_eq_true_iff _ _).2 ⟨rfl, rfl, .inl rfl⟩

/-- Literals that no float has to be rounded for have the same value exactly if they are
numerically equal. -/
theorem sameValue_iff_equalNumbers {l m : Literal} (hnumber : m.isNumber = true)
    (hl : l.IsExact) (hm : m.IsExact) : sameValue l m = true ↔ l.EqualNumbers m := by
  cases m with
  | int j =>
    cases l with
    | int i =>
      simp only [sameValue, EqualNumbers, number?, decide_eq_true_eq, int.injEq, reduceCtorEq,
        false_and, exists_false, or_false, Option.some.injEq, exists_eq_left', Int.cast_inj,
        Int64.toInt_inj]
      exact eq_comm
    | float x => rw [sameValue_comm, equalNumbers_comm, equalNumbers_int_float hm]
    | _ => simp [sameValue, EqualNumbers, number?]
  | float y =>
    cases l with
    | int i => rw [equalNumbers_int_float hl]
    | float x => rw [equalNumbers_float_float]
    | _ => simp [sameValue, EqualNumbers, number?]
  | _ => exact absurd hnumber Bool.false_ne_true

theorem validate_values_eq_ok_iff (values : List Literal) (field : String) (now : Time.Instant)
    (l : Literal) : (Constraint.mk (some values) none).validate field now l = .ok l ↔
      ∃ v ∈ values, sameValue v l = true := by
  have hallows : (Constraint.mk (some values) none).allows l = values.any (·.sameValue l) := rfl
  rw [← List.any_eq_true, ← hallows, Constraint.validate]
  by_cases hallowed : (Constraint.mk (some values) none).allows l = true
  · rw [if_pos hallowed]
    exact iff_of_true rfl hallowed
  · rw [if_neg hallowed]
    exact iff_of_false (by simp) hallowed

/-- An integer beside a float is compared by its nearest float. So numeric equality holds beside
the exact integers and no others, sameness is lost only between two integers that share a
float, and a list of allowed values takes the numbers that are equal to one of them as long as
the integers are exact. -/
theorem sameValue_nearest_law (i : Int64) (l m n : Literal) (values : List Literal) (field : String)
    (now : Time.Instant) :
    (∀ x : Binary64,
      sameValue (.float x) (.int i) = sameValue (.int i) (.float x) ∧
        (sameValue (.int i) (.float x) = true ↔ x.IsNearest i.toInt)) ∧
    ((∀ x, sameValue (.int i) (.float x) = true ↔ x.isFinite = true ∧ x.value = i.toInt) ↔
      (Literal.int i).IsExact) ∧
    sameValue l m = sameValue m l ∧
    (sameValue l m = true → sameValue m n = true →
      (sameValue l n = true ↔ ∀ a b, l = .int a → n = .int b → a = b)) ∧
    (l.isNumber = true → (∀ v ∈ l :: values, v.IsExact) →
      ((Constraint.mk (some values) none).validate field now l = .ok l ↔
        ∃ v ∈ values, v.EqualNumbers l)) := by
  refine ⟨fun x => ⟨sameValue_comm _ _, Binary64.sameNumber_ofInt_iff i x⟩, isExact_iff i,
    sameValue_comm l m, sameValue_trans_iff, ?_⟩
  intro hnumber hexact
  obtain ⟨hl, hvalues⟩ := List.forall_mem_cons.1 hexact
  rw [validate_values_eq_ok_iff]
  constructor
  · rintro ⟨v, hv, hsame⟩
    exact ⟨v, hv, (sameValue_iff_equalNumbers hnumber (hvalues v hv) hl).1 hsame⟩
  · rintro ⟨v, hv, hequal⟩
    exact ⟨v, hv, (sameValue_iff_equalNumbers hnumber (hvalues v hv) hl).2 hequal⟩

/-- Two integers beside the float `2 ^ 53`, and a float that is one of two allowed integers. -/
theorem sameValue_nearest_law_twoIntegers :
    (sameValue (.int 9007199254740993) (.float (Binary64.ofInt 9007199254740992)) = true ∧
      sameValue (.float (Binary64.ofInt 9007199254740992)) (.int 9007199254740992) = true ∧
      sameValue (.int 9007199254740993) (.int 9007199254740992) ≠ true) ∧
    ∀ now, (Constraint.mk (some [.int 7, .int 2]) none).validate "a" now
      (.float (Binary64.ofInt 2)) = .ok (.float (Binary64.ofInt 2)) := by
  have epoch : Time.Instant := ⟨0, 0, by decide, by decide, by decide⟩
  have hlm : sameValue (.int 9007199254740993) (.float (Binary64.ofInt 9007199254740992)) = true := by
    decide +kernel
  have hmn : sameValue (.float (Binary64.ofInt 9007199254740992)) (.int 9007199254740992) = true := by
    decide +kernel
  refine ⟨⟨hlm, hmn, fun hln => ?_⟩, fun now => ?_⟩
  · obtain ⟨-, -, -, htrans, -⟩ := sameValue_nearest_law 0 (.int 9007199254740993)
      (.float (Binary64.ofInt 9007199254740992)) (.int 9007199254740992) [] "a" epoch
    exact absurd ((htrans hlm hmn).1 hln _ _ rfl rfl) (by decide)
  · have hexact : ∀ v ∈ [Literal.float (Binary64.ofInt 2), .int 7, .int 2], v.IsExact := by
      simp only [List.forall_mem_cons, List.not_mem_nil, false_imp_iff, implies_true, and_true]
      exact ⟨trivial, ⟨7, 0, by decide, by decide⟩, ⟨2, 0, by decide, by decide⟩⟩
    have hvalue : (Binary64.ofInt 2).value = (2 : Int64).toInt :=
      (Binary64.value_ofInt_iff 2).2 ⟨2, 0, by decide, by decide⟩
    have hfinite : (Binary64.ofInt 2).isFinite = true := (Binary64.ofInt_isNearest 2).1
    obtain ⟨-, -, -, -, hallowed⟩ := sameValue_nearest_law 2 (.float (Binary64.ofInt 2)) (.int 2)
      (.int 2) [.int 7, .int 2] "a" now
    refine (hallowed rfl hexact).2 ⟨.int 2, by simp, .inl ⟨_, rfl, ?_⟩⟩
    rw [number?, if_pos hfinite, hvalue]

end Sift.Literal

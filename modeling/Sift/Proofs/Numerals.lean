import Mathlib.Algebra.Ring.Nat
import Mathlib.Data.List.Basic
import Sift.Proofs.ValueReading

/-!
# The text of numerals

The digits of a whole number denote it, and zeros in front of them or behind them do what
they should. A decimal that is written with a fraction is a sign and two runs of digits
around a point, which together denote its digits up to zeros at the end.
-/

namespace Sift.Grammar

open Sift.Text

theorem natOfDigits_eq (s : List Char) : natOfDigits s = Nat.ofDigitChars 10 s 0 := rfl

theorem natOfDigits_digitsOfNat (n : Nat) : natOfDigits (digitsOfNat n) = n :=
  Nat.ofDigitChars_ten_toDigits

theorem natOfDigits_append_zeros (s : List Char) (k : Nat) :
    natOfDigits (s ++ List.replicate k '0') = natOfDigits s * Nat.pow 10 k := by
  rw [natOfDigits_eq, Nat.ofDigitChars_append, Nat.ofDigitChars_replicate_zero, Nat.mul_comm,
    natOfDigits_eq, Nat.pow_eq]

theorem natOfDigits_zeros_append (k : Nat) (s : List Char) :
    natOfDigits (List.replicate k '0' ++ s) = natOfDigits s := by
  rw [natOfDigits_eq, Nat.ofDigitChars_append, Nat.ofDigitChars_replicate_zero, Nat.mul_zero,
    natOfDigits_eq]

theorem natOfDigits_append (s t : List Char) :
    natOfDigits (s ++ t) = Nat.pow 10 t.length * natOfDigits s + natOfDigits t := by
  rw [natOfDigits_eq, Nat.ofDigitChars_append, Nat.ofDigitChars_eq_ofDigitChars_zero,
    natOfDigits_eq, natOfDigits_eq, Nat.pow_eq]

theorem digitValue_lt {c : Char} (h : isDigit c = true) : digitValue c < 10 := by
  simp only [isDigit, Bool.and_eq_true, decide_eq_true_eq, Char.le_def, UInt32.le_iff_toNat_le] at h
  have hvalue : c.toNat ≤ 57 := h.2
  have hzero : '0'.toNat = 48 := rfl
  rw [digitValue]
  omega

theorem natOfDigits_lt {s : List Char} (h : Run isDigit s) :
    natOfDigits s < Nat.pow 10 s.length := by
  have hfold (n : Nat) :
      s.foldl (fun n c => 10 * n + digitValue c) n < (n + 1) * Nat.pow 10 s.length := by
    induction s generalizing n with
    | nil =>
      rw [List.foldl_nil, List.length_nil, Nat.pow_eq, Nat.pow_zero]
      omega
    | cons c s ih =>
      obtain ⟨hc, hs⟩ := (run_cons _ _ _).1 h
      have hdigit := digitValue_lt hc
      calc (c :: s).foldl (fun n c => 10 * n + digitValue c) n
          < (10 * n + digitValue c + 1) * Nat.pow 10 s.length := ih hs _
        _ ≤ ((n + 1) * 10) * Nat.pow 10 s.length := Nat.mul_le_mul_right _ (by omega)
        _ = (n + 1) * Nat.pow 10 (c :: s).length := by
          rw [List.length_cons, Nat.pow_eq, Nat.pow_eq, Nat.pow_succ', Nat.mul_assoc]
  simpa [natOfDigits] using hfold 0

theorem run_digitsOfNat (n : Nat) : Run isDigit (digitsOfNat n) := by
  intro c hc
  have hdigit := Nat.isDigit_of_mem_toDigits (by decide) (by decide) hc
  simpa [Char.isDigit, isDigit, Char.le_def, UInt32.le_iff_toNat_le] using hdigit

theorem run_zeros (k : Nat) : Run isDigit (List.replicate k '0') := by
  intro c hc
  rw [(List.mem_replicate.1 hc).2]
  decide

theorem digitsOfNat_ne_nil (n : Nat) : digitsOfNat n ≠ [] := Nat.toDigits_ne_nil

/-- A number other than zero does not begin with a zero. -/
theorem exists_digitsOfNat_eq_cons {n : Nat} (hn : n ≠ 0) :
    ∃ d ds, digitsOfNat n = d :: ds ∧ d ≠ '0' := by
  induction n using Nat.strongRecOn with
  | ind n ih =>
    unfold digitsOfNat at ih ⊢
    rw [Nat.toDigits_eq_if (by decide)]
    split
    · next hlt =>
      have hall : ∀ k < 10, k ≠ 0 → Nat.digitChar k ≠ '0' := by decide
      exact ⟨_, _, rfl, hall n hlt hn⟩
    · next hle =>
      obtain ⟨d, ds, hdigits, hd⟩ := ih (n / 10) (by omega) (by omega)
      exact ⟨d, _, by rw [hdigits, List.cons_append], hd⟩

/-- No zero stands before other digits. -/
theorem leading_digitsOfNat {n : Nat} (h : (digitsOfNat n).head? = some '0') :
    digitsOfNat n = ['0'] := by
  by_cases hn : n = 0
  · rw [hn]
    rfl
  · obtain ⟨d, ds, hcons, hd⟩ := exists_digitsOfNat_eq_cons hn
    rw [hcons] at h
    exact absurd (Option.some.inj h) hd

theorem digitsOfInt_eq (i : Int) :
    digitsOfInt i = signed (i < 0) (digitsOfNat i.natAbs) ∧
      wholeNumber (i < 0) (digitsOfNat i.natAbs) = i := by
  unfold digitsOfInt signed wholeNumber
  rw [natOfDigits_digitsOfNat]
  by_cases hnegative : i < 0
  · have habs : -(i.natAbs : Int) = i := by omega
    simp only [hnegative, decide_true, if_true, true_and]
    exact habs
  · have habs : (i.natAbs : Int) = i := by omega
    simp only [hnegative, decide_false, if_false, Bool.false_eq_true, true_and]
    exact habs

def Width (n : Nat) (digits : List Char) : Prop := digits.length = n ∧ Run isDigit digits

theorem Width.ne_nil {n : Nat} {digits : List Char} (h : Width (n + 1) digits) : digits ≠ [] :=
  List.ne_nil_of_length_eq_add_one h.1

theorem Width.two {digits : List Char} (h : Width 2 digits) : ∃ a b, digits = [a, b] :=
  List.length_eq_two.1 h.1

theorem Width.four {digits : List Char} (h : Width 4 digits) :
    ∃ a b c d, digits = [a, b, c, d] := by
  obtain ⟨hlength, -⟩ := h
  cases digits with
  | nil => cases hlength
  | cons a digits =>
    obtain ⟨b, c, d, rfl⟩ := List.length_eq_three.1 (Nat.succ.inj hlength)
    exact ⟨a, b, c, d, rfl⟩

theorem takeDigits_eq_some_iff {n v : Nat} {s after : List Char} :
    takeDigits n s = some (v, after) ↔
      ∃ digits, s = digits ++ after ∧ Width n digits ∧ v = natOfDigits digits := by
  simp only [takeDigits, Option.ite_none_right_eq_some, Option.some.injEq, Prod.mk.injEq]
  constructor
  · rintro ⟨⟨hlength, hdigits⟩, rfl, rfl⟩
    exact ⟨s.take n, (List.take_append_drop n s).symm, ⟨hlength, List.all_eq_true.1 hdigits⟩, rfl⟩
  · rintro ⟨digits, rfl, ⟨rfl, hrun⟩, rfl⟩
    rw [List.take_left, List.drop_left]
    exact ⟨⟨rfl, all_isDigit hrun⟩, rfl, rfl⟩

theorem takeDigits_width {n : Nat} {digits : List Char} (h : Width n digits)
    (after : List Char) : takeDigits n (digits ++ after) = some (natOfDigits digits, after) :=
  takeDigits_eq_some_iff.2 ⟨digits, rfl, h, rfl⟩

theorem run_padded (width n : Nat) : Run isDigit (padded width n) :=
  run_append (run_zeros _) (run_digitsOfNat n)

theorem width_padded {width : Nat} (hwidth : 0 < width) {n : Nat} (h : n < 10 ^ width) :
    Width width (padded width n) := by
  have hcount : (digitsOfNat n).length ≤ width :=
    (Nat.length_toDigits_le_iff (by decide) hwidth).2 h
  refine ⟨?_, run_padded width n⟩
  rw [padded, List.length_append, List.length_replicate]
  omega

theorem natOfDigits_padded (width n : Nat) : natOfDigits (padded width n) = n := by
  rw [padded, natOfDigits_zeros_append, natOfDigits_digitsOfNat]

theorem takeDigits_padded {width : Nat} (hwidth : 0 < width) {n : Nat} (h : n < 10 ^ width)
    (rest : List Char) : takeDigits width (padded width n ++ rest) = some (n, rest) := by
  rw [takeDigits_width (width_padded hwidth h), natOfDigits_padded]

theorem takeNanos_of_stops {s : List Char} (h : Stops (· = '.') s) :
    takeNanos s = some (0, s) := by
  unfold takeNanos
  split
  · exact absurd h (by simp)
  · rfl

theorem takeNanos_fraction {digits after : List Char} (hdigits : Run isDigit digits)
    (hend : Stops isDigit after) : takeNanos ('.' :: (digits ++ after)) =
      if digits = [] then none
      else some (natOfDigits (digits.take 9) * Nat.pow 10 (9 - (digits.take 9).length), after) := by
  simp only [takeNanos, takeWhile_run hdigits hend, List.drop_left]

/-- A decimal as it is written with a fraction, and what its digits denote. -/
structure IsNumeral (d : Decimal) (digits fraction : List Char) : Prop where
  digits_ne_nil : digits ≠ []
  leading : digits.head? = some '0' → digits = ['0']
  run_digits : Run isDigit digits
  fraction_ne_nil : fraction ≠ []
  run_fraction : Run isDigit fraction
  value : ∃ zeros : Nat, natOfDigits (digits ++ fraction) = d.digits * Nat.pow 10 zeros ∧
    d.exponent = -fraction.length + zeros

theorem withFraction_whole (negative : Bool) {whole : List Char} (h : Run isDigit whole) :
    withFraction (signed negative whole) = signed negative (whole ++ ['.', '0']) := by
  have hpoint : '.' ∉ whole := not_mem_of_run h (by decide)
  cases negative with
  | true => simp [withFraction, signed, hpoint]
  | false => simp [withFraction, signed, hpoint]

theorem withFraction_fraction (negative : Bool) (digits fraction : List Char) :
    withFraction (signed negative (digits ++ '.' :: fraction)) =
      signed negative (digits ++ '.' :: fraction) := by
  cases negative with
  | true => simp [withFraction, signed]
  | false => simp [withFraction, signed]

/-- A decimal without places is written with the fraction zero. -/
theorem isNumeral_whole (negative : Bool) (n e : Nat) :
    ∃ whole, Decimal.positional ⟨negative, n, .ofNat e⟩ = signed negative whole ∧
      IsNumeral ⟨negative, n, .ofNat e⟩ whole ['0'] := by
  have hdigits := run_digitsOfNat n
  have hsome := digitsOfNat_ne_nil n
  have hn := natOfDigits_digitsOfNat n
  let whole := if n = 0 then digitsOfNat n else digitsOfNat n ++ List.replicate e '0'
  have hwhole : whole ≠ [] ∧ (whole.head? = some '0' → whole = ['0']) ∧ Run isDigit whole ∧
      natOfDigits whole = n * Nat.pow 10 e := by
    by_cases hzero : n = 0
    · have htext : whole = digitsOfNat n := if_pos hzero
      rw [htext, hn, hzero, Nat.zero_mul]
      exact ⟨digitsOfNat_ne_nil 0, fun _ => rfl, run_digitsOfNat 0, rfl⟩
    · have htext : whole = digitsOfNat n ++ List.replicate e '0' := if_neg hzero
      obtain ⟨d, ds, hcons, hd⟩ := exists_digitsOfNat_eq_cons hzero
      have hleading : whole.head? = some '0' → whole = ['0'] := by
        rw [htext, hcons]
        exact fun hhead => absurd (Option.some.inj hhead) hd
      refine ⟨by simp [htext, hsome], hleading, ?_⟩
      rw [htext, natOfDigits_append_zeros, hn]
      exact ⟨run_append hdigits (run_zeros e), rfl⟩
  obtain ⟨hwholeSome, hleading, hwholeRun, hvalue⟩ := hwhole
  refine ⟨whole, ?_, hwholeSome, hleading, hwholeRun, by simp, run_zeros 1, e + 1, ?_, ?_⟩
  · cases negative with
    | true => rfl
    | false => rfl
  · have hlast := natOfDigits_append_zeros whole 1
    rw [hvalue, Nat.mul_assoc, Nat.pow_eq, Nat.pow_eq, ← Nat.pow_add] at hlast
    exact hlast
  · change (e : Int) = -(1 : Nat) + (e + 1 : Nat)
    omega

/-- Zeros are put in front of a number only as far as one of them is left before the point. -/
theorem leading_padded (n e : Nat) :
    let padded := List.replicate (e + 1 + 1 - (digitsOfNat n).length) '0' ++ digitsOfNat n
    let whole := padded.take (padded.length - (e + 1))
    whole.head? = some '0' → whole = ['0'] := by
  intro padded whole
  by_cases hshort : (digitsOfNat n).length < e + 1 + 1
  · have hlength : padded.length - (e + 1) = 1 := by
      simp only [padded, List.length_append, List.length_replicate]
      omega
    have hpadded : padded = '0' :: (List.replicate (e + 1 - (digitsOfNat n).length) '0' ++
        digitsOfNat n) := by
      rw [← List.cons_append, ← List.replicate_succ]
      simp only [padded]
      congr 2
      omega
    intro _
    simp only [whole, hlength]
    rw [hpadded]
    rfl
  · have hn : n ≠ 0 := by
      rintro rfl
      have hzero : (digitsOfNat 0).length = 1 := rfl
      omega
    obtain ⟨d, ds, hcons, hd⟩ := exists_digitsOfNat_eq_cons hn
    have hpadded : padded = d :: ds := by
      simp only [padded]
      rw [Nat.sub_eq_zero_of_le (Nat.not_lt.1 hshort), List.replicate_zero, List.nil_append, hcons]
    have hpos : padded.length - (e + 1) = padded.length - (e + 1) - 1 + 1 := by
      rw [hpadded, ← hcons]
      omega
    intro hhead
    simp only [whole] at hhead
    rw [hpos, hpadded] at hhead
    exact absurd (Option.some.inj hhead) hd

/-- The digits of a decimal with places are cut before that many last ones, after zeros
have been put in front so that one is left. -/
theorem isNumeral_places (negative : Bool) (n e : Nat) :
    ∃ digits fraction, Decimal.positional ⟨negative, n, .negSucc e⟩ =
        signed negative (digits ++ '.' :: fraction) ∧
      IsNumeral ⟨negative, n, .negSucc e⟩ digits fraction := by
  have hvalue := natOfDigits_zeros_append (e + 1 + 1 - (digitsOfNat n).length) (digitsOfNat n)
  rw [natOfDigits_digitsOfNat] at hvalue
  have hpositional : Decimal.positional ⟨negative, n, .negSucc e⟩ =
      let padded := List.replicate (e + 1 + 1 - (digitsOfNat n).length) '0' ++ digitsOfNat n
      signed negative (padded.take (padded.length - (e + 1)) ++
        '.' :: padded.drop (padded.length - (e + 1))) := by
    cases negative with
    | true => rfl
    | false => rfl
  have hrun := run_append (run_zeros (e + 1 + 1 - (digitsOfNat n).length)) (run_digitsOfNat n)
  have hlength : e + 1 < (List.replicate (e + 1 + 1 - (digitsOfNat n).length) '0' ++
      digitsOfNat n).length := by
    simp only [List.length_append, List.length_replicate]
    omega
  have hleading := leading_padded n e
  generalize List.replicate (e + 1 + 1 - (digitsOfNat n).length) '0' ++ digitsOfNat n = padded at *
  refine ⟨_, _, hpositional, ?_, hleading, ?_, ?_, ?_, 0, ?_, ?_⟩
  · rw [← List.length_pos_iff, List.length_take]
    omega
  · exact fun c hc => hrun c (List.mem_of_mem_take hc)
  · rw [← List.length_pos_iff, List.length_drop]
    omega
  · exact fun c hc => hrun c (List.mem_of_mem_drop hc)
  · rw [List.take_append_drop, hvalue, Nat.pow_eq, Nat.pow_zero, Nat.mul_one]
  · have hplaces : (padded.drop (padded.length - (e + 1))).length = e + 1 := by
      rw [List.length_drop]
      omega
    change Int.negSucc e = _
    rw [hplaces]
    omega

theorem withFraction_positional (d : Decimal) :
    ∃ digits fraction, IsNumeral d digits fraction ∧
      withFraction d.positional = signed d.negative (digits ++ '.' :: fraction) := by
  obtain ⟨negative, n, exponent⟩ := d
  cases exponent with
  | ofNat e =>
    obtain ⟨whole, htext, hnumeral⟩ := isNumeral_whole negative n e
    exact ⟨whole, ['0'], hnumeral, by rw [htext, withFraction_whole negative hnumeral.run_digits]⟩
  | negSucc e =>
    obtain ⟨digits, fraction, htext, hnumeral⟩ := isNumeral_places negative n e
    exact ⟨digits, fraction, hnumeral, by rw [htext, withFraction_fraction]⟩

end Sift.Grammar

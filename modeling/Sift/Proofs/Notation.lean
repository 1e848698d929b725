import Sift.Expr.Printer
import Sift.Proofs.ComparisonReading
import Sift.Proofs.Numerals
import Sift.Proofs.ShortestDecimal

/-!
# Printed comparisons

A literal is printed as a value that denotes it, if it is no date and no float beyond the
finite ones. An infinity and NaN are printed as words or as nothing that can be read, so
they never come back. Field, operator and value of a printed comparison stay apart without
any blank between them.
-/

namespace Sift.Grammar

open Sift.Text

/-- What comes after a value in a printed expression. -/
def Delimited (after : List Char) : Prop :=
  ∃ c rest, after = c :: rest ∧ c ∈ [')', '&', '|']

theorem Delimited.stops {after : List Char} (h : Delimited after) :
    Stops isDigit after ∧ Stops isWordChar after ∧ ¬ StartsFraction after := by
  obtain ⟨c, rest, rfl, hc⟩ := h
  have hmarks : [')', '&', '|'] ⊆ ['(', ')', '\'', '&', '|'] := by simp
  obtain ⟨-, hword, hdigit, -, -, hpoint⟩ := mark_classes (hmarks hc)
  exact ⟨hdigit, hword, by simp [StartsFraction, hpoint]⟩

theorem ofDecimal_isNumeral {d : Decimal} {digits fraction : List Char}
    (h : IsNumeral d digits fraction) :
    Binary64.ofDecimal ⟨d.negative, natOfDigits (digits ++ fraction), -fraction.length⟩ =
      Binary64.ofDecimal d := by
  obtain ⟨negative, n, exponent⟩ := d
  obtain ⟨zeros, hvalue, hexponent⟩ := h.value
  simp only at hvalue hexponent ⊢
  rw [hvalue]
  by_cases hn : n = 0
  · simp [hn, Binary64.ofDecimal]
  · rw [Nat.pow_eq, Binary64.ofDecimal_mul_pow negative hn, ← hexponent]

theorem isValue_numeral {d : Decimal} {x : Binary64} (hx : Binary64.ofDecimal d = x)
    {after : List Char} (hafter : Stops isDigit after) :
    IsValue (withFraction d.positional) after (.float x) := by
  obtain ⟨digits, fraction, hnumeral, htext⟩ := withFraction_positional d
  have hvalue := IsValue.fraction d.negative hnumeral.digits_ne_nil hnumeral.run_digits
    hnumeral.fraction_ne_nil hnumeral.run_fraction hafter
  rwa [fractionLiteral, ofDecimal_isNumeral hnumeral, hx, ← htext] at hvalue

theorem isValue_int (i : Int64) {after : List Char} (hafter : Stops isDigit after)
    (hfraction : ¬ StartsFraction after) :
    IsValue (digitsOfInt i.toInt) after (.int i) := by
  obtain ⟨htext, hnumber⟩ := digitsOfInt_eq i.toInt
  have hvalue := IsValue.whole (i.toInt < 0) (digitsOfNat_ne_nil _)
    (run_digitsOfNat i.toInt.natAbs) hafter hfraction
  have hrange : Int64.minValue.toInt ≤ i.toInt ∧ i.toInt ≤ Int64.maxValue.toInt :=
    ⟨i.minValue_le_toInt, i.toInt_le⟩
  rwa [wholeLiteral, hnumber, if_pos hrange, Int64.ofInt_toInt, ← htext] at hvalue

theorem quoted_escaped (s : List Char) : Quoted (s.flatMap Literal.escapeQuoted) s := by
  induction s with
  | nil => exact .nil
  | cons c s ih =>
    rw [List.flatMap_cons]
    by_cases hc : c = '\'' ∨ c = '\\'
    · have hescape : Literal.escapeQuoted c = ['\\', c] := by
        rcases hc with rfl | rfl
        · rfl
        · rfl
      rw [hescape]
      exact .escaped ih
    · have hplain : Literal.escapeQuoted c = [c] := by
        simpa [Literal.escapeQuoted] using hc
      rw [hplain]
      exact .plain (fun h => hc (.inl h)) (fun h => hc (.inr h)) ih

theorem isValue_notated {l : Literal} (hdate : ∀ t, l ≠ .date t)
    (hfinite : ∀ x, l = .float x → x.isFinite) {after : List Char} (hafter : Delimited after) :
    IsValue l.notated.toList after l := by
  obtain ⟨hdigit, hword, hfraction⟩ := hafter.stops
  cases l with
  | string s =>
    have hvalue : IsValue ('\'' :: s.toList.flatMap Literal.escapeQuoted ++ ['\'']) after
        (.string (String.ofList s.toList)) := .quoted (quoted_escaped s.toList)
    rw [String.ofList_toList] at hvalue
    simpa [Literal.notated] using hvalue
  | int i =>
    have hvalue := isValue_int i hdigit hfraction
    simpa [Literal.notated, Literal.display] using hvalue
  | float x =>
    have hx : x.isFinite := hfinite x rfl
    have hvalue := isValue_numeral (Binary64.ofDecimal_shortest .up hx) hdigit
    simpa [Literal.notated, Literal.display, Binary64.plainText, Binary64.not_isNaN hx, hx] using hvalue
  | bool b =>
    cases b with
    | true => exact .keyword (by decide) hword
    | false => exact .keyword (by decide) hword
  | null => exact .keyword (by decide) hword
  | date t => exact absurd rfl (hdate t)

/-- What is printed for a float beyond the finite ones. -/
theorem notated_of_not_isFinite {x : Binary64} (h : ¬ x.isFinite) :
    (Literal.float x).notated.toList ∈
      [['N', 'a', 'N', '.', '0'], ['i', 'n', 'f', '.', '0'], ['-', 'i', 'n', 'f', '.', '0']] := by
  have hfinite : x.isFinite = false := Bool.eq_false_iff.2 h
  simp only [Literal.notated, Literal.display, Binary64.plainText, hfinite, Bool.false_eq_true,
    if_false]
  cases x.isNaN with
  | true =>
    rw [if_pos rfl]
    decide
  | false =>
    rw [if_neg Bool.false_ne_true]
    cases x.negative with
    | true => decide
    | false => decide

/-- A float beyond the finite ones is read as a word or not at all. -/
theorem readValue_of_not_isFinite {x : Binary64} (h : ¬ x.isFinite) (rest : List Char) :
    ∀ y n, readValue ((Literal.float x).notated.toList ++ rest) ≠ .value (.float y) n := by
  have hstop : Stops isWordChar ('.' :: '0' :: rest) := by
    rw [stops_cons]
    decide
  have hword (c : Char) (cs : List Char) (hstart : startsWord c = true) (hrun : Run isWordChar cs)
      (hplain : ∃ s, literalOfWord (c :: cs) = .string s) (y : Binary64) (n : Nat) :
      readValue (c :: cs ++ '.' :: '0' :: rest) ≠ .value (.float y) n := by
    obtain ⟨s, hs⟩ := hplain
    rw [readValue_word hstart hrun hstop, hs]
    intro hread
    cases hread
  have hmem := notated_of_not_isFinite h
  simp only [List.mem_cons, List.not_mem_nil, or_false] at hmem
  obtain htext | htext | htext := hmem
  · rw [htext]
    exact hword 'N' ['a', 'N'] (by decide) (by simp only [run_cons, run_nil]; decide) ⟨_, rfl⟩
  · rw [htext]
    exact hword 'i' ['n', 'f'] (by decide) (by simp only [run_cons, run_nil]; decide) ⟨_, rfl⟩
  · have hnumber : readNumber? ('-' :: 'i' :: 'n' :: 'f' :: '.' :: '0' :: rest) = none :=
      @readNumber?_eq_none 1 _ rfl (by rw [List.drop_one, List.tail_cons, stops_cons]; decide)
    have hnothing : readValue ('-' :: 'i' :: 'n' :: 'f' :: '.' :: '0' :: rest) = .nothing := by
      have hstart : startsWord '-' = false := by decide
      simp [readValue, hnumber, hstart]
    intro y n hread
    rw [htext] at hread
    cases hnothing.symm.trans hread

structure IsWritable (c : Comparison) : Prop where
  field_ne_nil : c.field.toList ≠ []
  field : Run isFieldChar c.field.toList
  operator : IsOperator c.operator.toList []
  value : ∀ t, c.value ≠ .date t

theorem startsValue_notated (l : Literal) :
    ∃ c cs, l.notated.toList = c :: cs ∧ startsValue c = true := by
  by_cases hdate : ∃ t, l = .date t
  · obtain ⟨t, rfl⟩ := hdate
    exact ⟨'\'', t.wholeText.toList ++ ['\''], by simp [Literal.notated], by decide⟩
  · by_cases hfloat : ∃ x, l = .float x ∧ ¬ x.isFinite
    · obtain ⟨x, rfl, hx⟩ := hfloat
      have hmem := notated_of_not_isFinite hx
      simp only [List.mem_cons, List.not_mem_nil, or_false] at hmem
      obtain htext | htext | htext := hmem
      · exact ⟨_, _, htext, by decide⟩
      · exact ⟨_, _, htext, by decide⟩
      · exact ⟨_, _, htext, by decide⟩
    · have hfinite : ∀ x, l = .float x → x.isFinite :=
        fun x hx => Classical.byContradiction fun h => hfloat ⟨x, hx, h⟩
      have hvalue : IsValue l.notated.toList [')'] l :=
        isValue_notated (fun t ht => hdate ⟨t, ht⟩) hfinite ⟨')', [], rfl, by decide⟩
      exact hvalue.startsValue

/-- An operator ends where no operator can begin. -/
theorem isOperator_of_stops {op s : List Char} (h : IsOperator op [])
    (hs : Stops startsOperator s) : IsOperator op s := by
  have hclasses : Stops isSymbolChar s ∧ Stops (· = '=') s := by
    cases s with
    | nil => exact ⟨trivial, trivial⟩
    | cons c s =>
      simp only [stops_cons, startsOperator, Bool.or_eq_false_iff, decide_eq_false_iff_not,
        List.mem_cons, List.not_mem_nil, or_false, not_or] at hs ⊢
      exact ⟨hs.1, hs.2.1⟩
  obtain ⟨hsymbol, hequal⟩ := hclasses
  cases h with
  | unequal => exact .unequal
  | atLeast => exact .atLeast
  | atMost => exact .atMost
  | equal => exact .equal
  | greater => exact .greater hequal
  | less => exact .less hequal
  | symbol hd => exact .symbol hd hsymbol fun _ => hequal
  | symbols hd he => exact .symbols hd he

theorem stops_of_startsValue {c : Char} {s : List Char} (hc : startsValue c = true) :
    Stops startsOperator (c :: s) := by
  apply Bool.of_not_eq_true
  intro hop
  rw [(startsOperator_classes hop).2.2] at hc
  cases hc

theorem isOperator_notated {op : List Char} (h : IsOperator op []) (l : Literal)
    (rest : List Char) : IsOperator op (l.notated.toList ++ rest) := by
  obtain ⟨c, cs, htext, hc⟩ := startsValue_notated l
  rw [htext]
  exact isOperator_of_stops h (stops_of_startsValue hc)

theorem stops_isBlank_notated (l : Literal) (rest : List Char) :
    Stops isBlank (l.notated.toList ++ rest) := by
  obtain ⟨c, cs, htext, hc⟩ := startsValue_notated l
  rw [htext]
  apply Bool.of_not_eq_true
  intro hblank
  rw [(isBlank_classes hblank).2.2] at hc
  cases hc

theorem startsComparison_notated {c : Comparison} (h : IsWritable c) (rest : List Char) :
    StartsComparison (c.notated ++ rest) :=
  ⟨c.field.toList, [], c.operator.toList, c.value.notated.toList ++ rest,
    by simp [Comparison.notated], h.field_ne_nil, h.field, run_nil _,
    isOperator_notated h.operator c.value rest⟩

theorem isComparison_notated {c : Comparison} (h : IsWritable c)
    (hfinite : ∀ x, c.value = .float x → x.isFinite) {after : List Char}
    (hafter : Delimited after) : IsComparison c.notated after c := by
  have hvalue := isValue_notated h.value hfinite hafter
  have hcomparison := IsComparison.mk h.field_ne_nil h.field (run_nil _)
    (isOperator_notated h.operator c.value after) (run_nil _) hvalue
  simpa [Comparison.notated] using hcomparison

theorem eq_nil_of_run_of_stops {p : Char → Bool} {gap s t : List Char} (hgap : Run p gap)
    (ht : Stops p t) (h : gap ++ s = t) : gap = [] := by
  cases gap with
  | nil => rfl
  | cons c gap =>
    rw [← h] at ht
    have hc := ((run_cons _ _ _).1 hgap).1
    rw [show p c = false from ht] at hc
    cases hc

/-- A comparison that is read from the front of a printed one has no blanks in it. -/
theorem exists_value_of_notated {run after rest : List Char} {c : Comparison}
    (hc : IsComparison run after c) (h : run ++ after = c.notated ++ rest) :
    ∃ value, run = c.field.toList ++ c.operator.toList ++ value ∧
      value ++ after = c.value.notated.toList ++ rest ∧ IsValue value after c.value := by
  obtain @⟨field, gap, operator, gap', value, _, literal, -, -, hgap, hoperator, hgap',
    hvalue⟩ := hc
  simp only [Comparison.notated, String.toList_ofList, List.append_assoc,
    List.append_cancel_left_eq] at h ⊢
  have hoperator' := (hoperator.stops (literal.notated.toList ++ rest)).2
  obtain rfl := eq_nil_of_run_of_stops hgap hoperator' h
  rw [List.nil_append, List.append_cancel_left_eq] at h
  obtain rfl := eq_nil_of_run_of_stops hgap' (stops_isBlank_notated literal rest) h
  exact ⟨value, by simp, h, hvalue⟩

/-- Only the printed text itself is read, and its value is no float beyond the finite ones. -/
theorem eq_notated_of_isComparison {run after rest : List Char} {c : Comparison}
    (hdate : ∀ t, c.value ≠ .date t) (hc : IsComparison run after c) (hrest : Delimited rest)
    (h : run ++ after = c.notated ++ rest) :
    run = c.notated ∧ ∀ x, c.value = .float x → x.isFinite := by
  obtain ⟨value, rfl, htext, hvalue⟩ := exists_value_of_notated hc h
  have hread := readValue_append hvalue
  rw [htext] at hread
  have hfinite : ∀ x, c.value = .float x → x.isFinite := by
    intro x hx
    apply Classical.byContradiction
    intro hinfinite
    rw [hx] at hread
    exact readValue_of_not_isFinite hinfinite rest x _ hread
  rw [readValue_append (isValue_notated hdate hfinite hrest)] at hread
  have hlength : c.value.notated.toList.length = value.length := by
    simpa only [ValueReading.value.injEq, true_and] using hread
  refine ⟨?_, hfinite⟩
  rw [Comparison.notated, (List.append_inj htext hlength.symm).1]

end Sift.Grammar

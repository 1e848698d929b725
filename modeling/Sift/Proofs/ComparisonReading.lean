import Sift.Proofs.ValueReading

/-!
# Comparisons are read as the grammar has them

A comparison has begun where a field name is followed by an operator. Reading it steps
over the parts one by one, and each step is as long as the part, because a part of
another kind or a blank follows it. Where no comparison has begun nothing is read.
-/

namespace Sift.Grammar

open Sift.Text

@[simp] theorem drop_drop (c : Cursor) (m n : Nat) : (c.drop m).drop n = c.drop (m + n) := by
  simp [Cursor.drop, List.take_add, Nat.add_assoc]

@[simp] theorem drop_zero (c : Cursor) : c.drop 0 = c := by
  simp [Cursor.drop]

theorem rest_drop_length {c : Cursor} {text after : List Char} (h : c.rest = text ++ after) :
    (c.drop text.length).rest = after := by
  simp [h]

/-- The measure of an induction on the text that is left. -/
theorem length_rest_drop_lt {c : Cursor} {text after : List Char} (h : c.rest = text ++ after)
    (hsome : text ≠ []) : (c.drop text.length).rest.length < c.rest.length := by
  have hpos := List.length_pos_iff.2 hsome
  rw [rest_drop_length h, h, List.length_append]
  omega

theorem rest_drop_one {c : Cursor} {x : Char} {s : List Char} (h : c.rest = x :: s) :
    (c.drop 1).rest = s := by
  simp [h]

theorem offset_drop_length {c : Cursor} {text after : List Char} (h : c.rest = text ++ after) :
    (c.drop text.length).offset = c.offset + byteLength text := by
  simp [Cursor.drop, h]

theorem offset_drop_one {c : Cursor} {x : Char} {s : List Char} (h : c.rest = x :: s) :
    (c.drop 1).offset = c.offset + x.utf8Size := by
  simp [Cursor.drop, h]

theorem skipBlanks_eq_drop {c : Cursor} {gap after : List Char} (h : c.rest = gap ++ after)
    (hgap : Run isBlank gap) (hend : Stops isBlank after) : c.skipBlanks = c.drop gap.length := by
  rw [Cursor.skipBlanks, Cursor.skipWhile, h, takeWhile_run hgap hend]

/-- The part of a comparison before its value, with the blanks after it. -/
structure IsHead (field gap operator gap' rest : List Char) : Prop where
  some : field ≠ []
  field : Run isFieldChar field
  gap : Run isBlank gap
  operator : IsOperator operator (gap' ++ rest)
  gap' : Run isBlank gap'
  rest : Stops isBlank rest

theorem IsValue.stops_isBlank {value after rest : List Char} {literal : Literal}
    (h : IsValue value after literal) : Stops isBlank (value ++ rest) := by
  obtain ⟨c, cs, rfl, hc⟩ := h.startsValue
  rw [List.cons_append, stops_cons]
  apply Bool.of_not_eq_true
  intro hblank
  rw [(isBlank_classes hblank).2.2] at hc
  cases hc

theorem IsOperator.stops {op after : List Char} (h : IsOperator op after) (rest : List Char) :
    Stops isFieldChar (op ++ rest) ∧ Stops isBlank (op ++ rest) := by
  obtain ⟨c, cs, rfl, hc⟩ := h.startsOperator
  exact ⟨(startsOperator_classes hc).1, (startsOperator_classes hc).2.1⟩

theorem IsOperator.length_pos {op after : List Char} (h : IsOperator op after) :
    0 < op.length := by
  obtain ⟨c, cs, rfl, -⟩ := h.startsOperator
  simp

theorem stops_isFieldChar_gap {gap s : List Char} (hgap : Run isBlank gap)
    (hs : Stops isFieldChar s) : Stops isFieldChar (gap ++ s) := by
  cases gap with
  | nil => exact hs
  | cons c gap => exact (isBlank_classes ((run_cons _ _ _).1 hgap).1).1

theorem readComparison_of_isHead {c : Cursor} {field gap operator gap' rest : List Char}
    (h : IsHead field gap operator gap' rest)
    (hc : c.rest = field ++ gap ++ operator ++ gap' ++ rest) :
    readComparison c =
      match readValue rest with
      | .nothing => .fault (.missingValue (String.ofList field)
          (c.drop (field ++ gap ++ operator ++ gap').length).offset)
      | .unterminated => .fault (.unterminatedString
          (c.drop (field ++ gap ++ operator ++ gap').length).offset)
      | .value literal n => .comparison ⟨String.ofList field, String.ofList operator, literal⟩
          (c.drop ((field ++ gap ++ operator ++ gap').length + n)).skipBlanks := by
  obtain ⟨hfieldEnd, hgapEnd⟩ := h.operator.stops (gap' ++ rest)
  have hrest : c.rest = field ++ (gap ++ (operator ++ (gap' ++ rest))) := by simp [hc]
  have hfield : c.rest.takeWhile isFieldChar = field := by
    rw [hrest]
    exact takeWhile_run h.field (stops_isFieldChar_gap h.gap hfieldEnd)
  have hskip : (c.drop field.length).skipBlanks = c.drop (field ++ gap).length := by
    rw [skipBlanks_eq_drop (rest_drop_length hrest) h.gap hgapEnd, drop_drop, List.length_append]
  have hrest' : (c.drop (field ++ gap).length).rest = operator ++ (gap' ++ rest) :=
    rest_drop_length (by simp [hc])
  have hlength := operatorLength_append h.operator
  have hskip' : (c.drop (field ++ gap ++ operator).length).skipBlanks =
      c.drop (field ++ gap ++ operator ++ gap').length := by
    have hrest'' : c.rest = field ++ gap ++ operator ++ (gap' ++ rest) := by simp [hc]
    rw [skipBlanks_eq_drop (rest_drop_length hrest'') h.gap' h.rest, drop_drop,
      ← List.length_append]
  have hsome : (field = [] || operator.length = 0) = false := by
    have hpos := h.operator.length_pos
    simp only [h.some, decide_false, Bool.false_or, decide_eq_false_iff_not]
    omega
  simp only [readComparison, hfield, hskip, hrest', hlength, hsome, drop_drop, List.take_left,
    ← List.length_append, hskip', rest_drop_length hc]
  cases readValue rest <;> rfl

theorem StartsComparison.exists_isHead {text : List Char} (h : StartsComparison text) :
    ∃ field gap operator gap' rest, IsHead field gap operator gap' rest ∧
      text = field ++ gap ++ operator ++ gap' ++ rest := by
  obtain ⟨field, gap, operator, after, rfl, hsome, hfield, hgap, hoperator⟩ := h
  obtain ⟨gap', rest, rfl, hgap', hrest⟩ := exists_run_append isBlank after
  exact ⟨field, gap, operator, gap', rest, ⟨hsome, hfield, hgap, hoperator, hgap', hrest⟩,
    by simp⟩

theorem readComparison_eq_nothing {c : Cursor} (h : ¬ StartsComparison c.rest) :
    readComparison c = .nothing := by
  obtain ⟨field, afterField, hc, hfield, hend⟩ := exists_run_append isFieldChar c.rest
  obtain ⟨gap, beforeOperator, rfl, hgap, hend'⟩ := exists_run_append isBlank afterField
  have htake : c.rest.takeWhile isFieldChar = field := by rw [hc, takeWhile_run hfield hend]
  have hskip : (c.drop field.length).skipBlanks.rest = beforeOperator := by
    have hrest := rest_drop_length hc
    rw [skipBlanks_eq_drop hrest hgap hend']
    exact rest_drop_length hrest
  by_cases hsome : field = []
  · simp [readComparison, htake, hsome]
  · have hlength : operatorLength beforeOperator = 0 := by
      by_cases hlength : operatorLength beforeOperator = 0
      · exact hlength
      · obtain ⟨operator, after, rfl, -, hoperator⟩ := isOperator_of_operatorLength hlength
        exact absurd ⟨field, gap, operator, after, by simp [hc], hsome, hfield, hgap, hoperator⟩ h
    simp [readComparison, htake, hskip, hlength]

theorem readComparison_ne_nothing {c : Cursor} (h : StartsComparison c.rest) :
    readComparison c ≠ .nothing := by
  obtain ⟨field, gap, operator, gap', rest, hhead, hc⟩ := h.exists_isHead
  rw [readComparison_of_isHead hhead hc]
  cases readValue rest <;> simp

theorem IsComparison.startsComparison {run after : List Char} {k : Comparison}
    (h : IsComparison run after k) : StartsComparison (run ++ after) := by
  obtain @⟨field, gap, operator, gap', value, _, literal, hsome, hfield, hgap, hoperator, -, -⟩ := h
  exact ⟨field, gap, operator, _, by simp, hsome, hfield, hgap, hoperator⟩

theorem IsComparison.length_pos {run after : List Char} {k : Comparison}
    (h : IsComparison run after k) : 0 < run.length := by
  obtain ⟨hsome, -⟩ := h
  have hpos := List.length_pos_iff.2 hsome
  simp only [List.length_append]
  omega

theorem readComparison_append {c : Cursor} {run after : List Char} {k : Comparison}
    (h : IsComparison run after k) (hc : c.rest = run ++ after) :
    readComparison c = .comparison k (c.drop run.length).skipBlanks := by
  obtain @⟨field, gap, operator, gap', value, _, literal, hsome, hfield, hgap, hoperator, hgap',
    hvalue⟩ := h
  have hhead : IsHead field gap operator gap' (value ++ after) :=
    ⟨hsome, hfield, hgap, by simpa using hoperator, hgap', hvalue.stops_isBlank⟩
  rw [readComparison_of_isHead hhead (by simp [hc]), readValue_append hvalue]
  simp only [List.length_append, Nat.add_assoc]

theorem isComparison_of_readComparison {c next : Cursor} {k : Comparison}
    (h : readComparison c = .comparison k next) :
    ∃ run after, c.rest = run ++ after ∧ IsComparison run after k ∧
      next = (c.drop run.length).skipBlanks := by
  by_cases hstart : StartsComparison c.rest
  · obtain ⟨field, gap, operator, gap', rest, hhead, hc⟩ := hstart.exists_isHead
    have hread := readComparison_of_isHead hhead hc
    rw [h] at hread
    cases hvalue : readValue rest with
    | nothing => simp [hvalue] at hread
    | unterminated => simp [hvalue] at hread
    | value literal n =>
      obtain ⟨value, after, rfl, rfl, hvalue'⟩ := isValue_of_readValue hvalue
      simp only [hvalue, ComparisonReading.comparison.injEq, ← List.length_append] at hread
      obtain ⟨rfl, rfl⟩ := hread
      exact ⟨_, after, by simp [hc], ⟨hhead.some, hhead.field, hhead.gap,
        by simpa using hhead.operator, hhead.gap', hvalue'⟩, rfl⟩
  · rw [readComparison_eq_nothing hstart] at h
    cases h

end Sift.Grammar

import Sift.Proofs.JsonReading
import Sift.Proofs.NearestNumber
import Sift.Proofs.Occurrences

/-!
# Numbers that are written in an expression

A number of any length becomes the integer that it denotes, if it is one and fits in 64 bits,
and the nearest float otherwise. As long as that float is finite the value stays a number: it
is a number in JSON, and its text can take the place of the one that was written. From half a
unit beyond the greatest float on it becomes an infinity, which is no number in either text.
-/

namespace Sift.Grammar

open Sift.Text Binary64 Json

/-- A number as JSON has it: no zero before other digits, some digits after a point, and an
exponent with or without a sign. -/
def IsJsonNumber (s : List Char) : Prop :=
  ∃ negative whole fraction exponent, s = signed negative (whole ++ fraction ++ exponent) ∧
    (whole ≠ [] ∧ Run isDigit whole ∧ (whole.head? = some '0' → whole = ['0'])) ∧
    (fraction = [] ∨ ∃ digits, fraction = '.' :: digits ∧ digits ≠ [] ∧ Run isDigit digits) ∧
    (exponent = [] ∨ ∃ sign digits, exponent = 'e' :: (sign ++ digits) ∧
      sign ∈ [[], ['+'], ['-']] ∧ digits ≠ [] ∧ Run isDigit digits)

theorem isJsonNumber_digitsOfInt (i : Int) : IsJsonNumber (digitsOfInt i) := by
  refine ⟨i < 0, digitsOfNat i.natAbs, [], [], ?_, ⟨digitsOfNat_ne_nil _, run_digitsOfNat _,
    leading_digitsOfNat⟩, .inl rfl, .inl rfl⟩
  rw [List.append_nil, List.append_nil, (digitsOfInt_eq i).1]

theorem isJsonNumber_jsonText (x : Binary64) : IsJsonNumber x.jsonText := by
  rw [Binary64.jsonText]
  generalize x.shortest .even = d
  split
  · obtain ⟨digits, fraction, hnumeral, htext⟩ := withFraction_positional d
    refine ⟨d.negative, digits, '.' :: fraction, [], ?_, ⟨hnumeral.digits_ne_nil,
      hnumeral.run_digits, hnumeral.leading⟩, .inr ⟨fraction, rfl, hnumeral.fraction_ne_nil,
      hnumeral.run_fraction⟩, .inl rfl⟩
    rw [List.append_nil, htext]
  · obtain ⟨first, others, hdigits, htext⟩ := scientific_eq d
    have hrun := run_digitsOfNat d.digits
    rw [hdigits] at hrun
    obtain ⟨hfirst, hothers⟩ := (run_cons _ _ _).1 hrun
    have hleading : [first].head? = some '0' → [first] = ['0'] := fun hhead => by
      rw [Option.some.inj hhead]
    refine ⟨d.negative, [first], pointed others, 'e' :: exponentText (d.point - 1), by
      rw [htext]; simp, ⟨by simp, by simp [hfirst], hleading⟩, ?_, .inr ?_⟩
    · cases others with
      | nil => exact .inl rfl
      | cons c cs => exact .inr ⟨c :: cs, rfl, by simp, hothers⟩
    · refine ⟨[if d.point - 1 < 0 then '-' else '+'], _, rfl, ?_, digitsOfNat_ne_nil _,
        run_digitsOfNat _⟩
      split <;> simp

/-- A number as an expression has it: digits with a minus before them or none, and a point with
digits behind it or none. -/
structure Numeral where
  negative : Bool
  digits : List Char
  fraction : Option (List Char)
  digits_ne_nil : digits ≠ []
  run_digits : Run isDigit digits
  fraction_valid : ∀ places ∈ fraction, places ≠ [] ∧ Run isDigit places

namespace Numeral

def text (n : Numeral) : List Char :=
  match n.fraction with
  | none => signed n.negative n.digits
  | some places => signed n.negative (n.digits ++ '.' :: places)

def magnitude (n : Numeral) : ℚ :=
  natOfDigits (n.digits ++ n.fraction.getD []) / 10 ^ (n.fraction.getD []).length

def number (n : Numeral) : ℚ := signOf n.negative * n.magnitude

def IsInteger (n : Numeral) : Prop :=
  n.fraction = none ∧ (Int64.minValue.toInt : ℚ) ≤ n.number ∧ n.number ≤ Int64.maxValue.toInt

def literal (n : Numeral) : Literal :=
  match n.fraction with
  | none => wholeLiteral n.negative n.digits
  | some places => fractionLiteral n.negative n.digits places

end Numeral

theorem length_signed (negative : Bool) (s : List Char) :
    (signed negative s).length = (if negative then 1 else 0) + s.length := by
  cases negative <;> simp [signed, Nat.add_comm]

theorem readValue_of_readNumber? {s : List Char} {l : Literal} {m : Nat}
    (h : readNumber? s = some (l, m)) : readValue s = .value l m := by
  simp only [readValue, h]

theorem isValue_whole_iff (negative : Bool) {digits after : List Char} {l : Literal}
    (hsome : digits ≠ []) (hdigits : Run isDigit digits) :
    IsValue (signed negative digits) after l ↔
      l = wholeLiteral negative digits ∧ Stops isDigit after ∧ ¬ StartsFraction after := by
  constructor
  · intro h
    have hread := readValue_append h
    obtain ⟨more, rest, rfl, hmore, hend⟩ := exists_run_append isDigit after
    have htext : signed negative digits ++ (more ++ rest) =
        signed negative (digits ++ more) ++ rest := by
      cases negative <;> simp [signed]
    have hsome' : digits ++ more ≠ [] := by simp [hsome]
    have hdigits' := run_append hdigits hmore
    rw [htext] at hread
    by_cases hstart : StartsFraction rest
    · obtain ⟨places, rest', rfl, hplacesSome, hplaces, hend'⟩ := exists_fraction hstart
      have htext' : signed negative (digits ++ more) ++ '.' :: (places ++ rest') =
          signed negative (digits ++ more ++ '.' :: places) ++ rest' := by
        cases negative <;> simp [signed]
      rw [htext', readValue_of_readNumber?
        (readNumber?_fraction hsome' hdigits' hplacesSome hplaces hend')] at hread
      simp only [ValueReading.value.injEq, length_signed, List.length_append,
        List.length_cons] at hread
      omega
    · rw [readValue_of_readNumber? (readNumber?_whole hsome' hdigits' hend hstart)] at hread
      simp only [ValueReading.value.injEq, length_signed, List.length_append] at hread
      obtain rfl : more = [] := List.length_eq_zero_iff.1 (by omega)
      rw [List.append_nil] at hread
      exact ⟨hread.1.symm, hend, hstart⟩
  · rintro ⟨rfl, hend, hstart⟩
    exact .whole negative hsome hdigits hend hstart

theorem isValue_fraction_iff (negative : Bool) {digits places after : List Char} {l : Literal}
    (hsome : digits ≠ []) (hdigits : Run isDigit digits) (hsome' : places ≠ [])
    (hplaces : Run isDigit places) :
    IsValue (signed negative (digits ++ '.' :: places)) after l ↔
      l = fractionLiteral negative digits places ∧ Stops isDigit after := by
  constructor
  · intro h
    have hread := readValue_append h
    obtain ⟨more, rest, rfl, hmore, hend⟩ := exists_run_append isDigit after
    have htext : signed negative (digits ++ '.' :: places) ++ (more ++ rest) =
        signed negative (digits ++ '.' :: (places ++ more)) ++ rest := by
      cases negative <;> simp [signed]
    rw [htext, readValue_of_readNumber? (readNumber?_fraction hsome hdigits
      (by simp [hsome']) (run_append hplaces hmore) hend)] at hread
    simp only [ValueReading.value.injEq, length_signed, List.length_append,
      List.length_cons] at hread
    obtain rfl : more = [] := List.length_eq_zero_iff.1 (by omega)
    rw [List.append_nil] at hread
    exact ⟨hread.1.symm, hend⟩
  · rintro ⟨rfl, hend⟩
    exact .fraction negative hsome hdigits hsome' hplaces hend

/-- A numeral is read as the number that it writes, and nothing of what comes after belongs
to it. -/
theorem isValue_text_iff (n : Numeral) {after : List Char} {l : Literal} :
    IsValue n.text after l ↔
      l = n.literal ∧ Stops isDigit after ∧ (n.fraction = none → ¬ StartsFraction after) := by
  obtain ⟨negative, digits, fraction, hsome, hdigits, hfraction⟩ := n
  cases fraction with
  | none =>
    simp only [Numeral.text, Numeral.literal, forall_const]
    exact isValue_whole_iff negative hsome hdigits
  | some places =>
    obtain ⟨hsome', hplaces⟩ := hfraction places rfl
    simp only [Numeral.text, Numeral.literal, reduceCtorEq, false_implies, and_true]
    exact isValue_fraction_iff negative hsome hdigits hsome' hplaces

namespace Numeral

theorem abs_number (n : Numeral) : |n.number| = n.magnitude := by
  have hpos : 0 ≤ n.magnitude := by
    unfold magnitude
    positivity
  rw [number, abs_signOf_mul, abs_of_nonneg hpos]

theorem number_of_fraction_eq_none {n : Numeral} (h : n.fraction = none) :
    n.number = wholeNumber n.negative n.digits := by
  unfold number magnitude wholeNumber signOf
  rw [h]
  cases n.negative <;> simp

theorem isInteger_iff {n : Numeral} (h : n.fraction = none) :
    n.IsInteger ↔ Int64.minValue.toInt ≤ wholeNumber n.negative n.digits ∧
      wholeNumber n.negative n.digits ≤ Int64.maxValue.toInt := by
  rw [IsInteger, number_of_fraction_eq_none h, Int.cast_le, Int.cast_le]
  exact and_iff_right h

/-- Apart from zero the sign that is written is the sign of the number. -/
theorem decide_wholeNumber_neg {negative : Bool} {digits : List Char}
    (h : wholeNumber negative digits ≠ 0) :
    decide (wholeNumber negative digits < 0) = negative := by
  unfold wholeNumber at h ⊢
  cases negative with
  | true =>
    simp only [if_true] at h ⊢
    exact decide_eq_true (by omega)
  | false =>
    simp only [Bool.false_eq_true, if_false]
    exact decide_eq_false (by omega)

theorem float_of_not_isInteger {n : Numeral} (h : n.fraction = none) (hfits : ¬ n.IsInteger) :
    |n.number| < overflowBound ∧ (∃ x, n.literal = .float x ∧ x.IsNearest n.number) ∨
      overflowBound ≤ |n.number| ∧ n.literal = .float (infinity n.negative) := by
  have hrange := mt (isInteger_iff h).2 hfits
  have hliteral : n.literal = .float (ofInt (wholeNumber n.negative n.digits)) := by
    rw [literal, h]
    exact if_neg hrange
  have hzero : wholeNumber n.negative n.digits ≠ 0 := by
    intro hzero
    rw [hzero] at hrange
    exact hrange (by decide)
  rw [hliteral, number_of_fraction_eq_none h]
  rcases Binary64.ofInt_cases (wholeNumber n.negative n.digits) with ⟨hbound, hnearest⟩ |
    ⟨hbound, hinfinite⟩
  · exact .inl ⟨hbound, _, rfl, hnearest⟩
  · rw [decide_wholeNumber_neg hzero] at hinfinite
    exact .inr ⟨hbound, by rw [hinfinite]⟩

theorem float_of_fraction {n : Numeral} {places : List Char} (h : n.fraction = some places) :
    |n.number| < overflowBound ∧ (∃ x, n.literal = .float x ∧ x.IsNearest n.number) ∨
      overflowBound ≤ |n.number| ∧ n.literal = .float (infinity n.negative) := by
  have hliteral : n.literal = fractionLiteral n.negative n.digits places := by
    rw [literal, h]
  have hmagnitude : Binary64.magnitude
      ⟨n.negative, natOfDigits (n.digits ++ places), -places.length⟩ = n.magnitude := by
    simp only [Binary64.magnitude, magnitude, h, Option.getD_some, zpow_neg, zpow_natCast,
      div_eq_mul_inv]
  have hcases := Binary64.ofDecimal_cases
    ⟨n.negative, natOfDigits (n.digits ++ places), -places.length⟩
  rw [hmagnitude, ← n.abs_number] at hcases
  rw [hliteral, fractionLiteral]
  rcases hcases with ⟨hbound, hnearest⟩ | ⟨hbound, hinfinite⟩
  · rw [abs_number] at hnearest
    exact .inl ⟨hbound, _, rfl, hnearest⟩
  · exact .inr ⟨hbound, by rw [hinfinite]⟩

/-- The literal of a number: an integer of exactly its value, the nearest float, or an infinity. -/
theorem literal_cases (n : Numeral) :
    (n.IsInteger ∧ ∃ i, n.literal = .int i ∧ (i.toInt : ℚ) = n.number) ∨
      (¬ n.IsInteger ∧ |n.number| < overflowBound ∧
        ∃ x, n.literal = .float x ∧ x.IsNearest n.number) ∨
      (¬ n.IsInteger ∧ overflowBound ≤ |n.number| ∧
        n.literal = .float (infinity n.negative)) := by
  by_cases hfits : n.IsInteger
  · obtain ⟨hlow, hhigh⟩ := (isInteger_iff hfits.1).1 hfits
    have hliteral : n.literal = .int (Int64.ofInt (wholeNumber n.negative n.digits)) := by
      rw [literal, hfits.1]
      exact if_pos ⟨hlow, hhigh⟩
    have hmax : Int64.maxValue.toInt < 2 ^ 63 := by decide
    refine .inl ⟨hfits, _, hliteral, ?_⟩
    rw [Int64.toInt_ofInt_of_le hlow (by omega), number_of_fraction_eq_none hfits.1]
  have hfloat : |n.number| < overflowBound ∧ (∃ x, n.literal = .float x ∧ x.IsNearest n.number) ∨
      overflowBound ≤ |n.number| ∧ n.literal = .float (infinity n.negative) := by
    cases hfraction : n.fraction with
    | none => exact float_of_not_isInteger hfraction hfits
    | some places => exact float_of_fraction hfraction
  rcases hfloat with hnearest | hinfinite
  · exact .inr (.inl ⟨hfits, hnearest⟩)
  · exact .inr (.inr ⟨hfits, hinfinite⟩)

end Numeral

/-- The value of a comparison stays the number that was written: an integer where there is one
of this value and otherwise a finite float. It is a number in JSON, and its text is read as the
same value, both in the place of the old one and in the comparison alone. -/
structure StaysNumber (n : Numeral) (k : Comparison) (head after : List Char) : Prop where
  integer : n.IsInteger → ∃ i, k.value = .int i ∧ (i.toInt : ℚ) = n.number
  float : ¬ n.IsInteger → ∃ x, k.value = .float x ∧ x.isFinite = true ∧ x.IsNearest n.number
  json : IsJsonNumber k.value.toJson.compact
  inPlace : IsComparison (head ++ k.value.display.toList) after k
  alone : ∀ o : ParseOptions, 1 ≤ o.maxDepth →
    Expr.parse o (String.ofList (head ++ k.value.display.toList)) =
      .ok (.group .and [.comparison k])

theorem stops_reverse_digits (front : List Char) {digits : List Char} (hsome : digits ≠ [])
    (h : Run isDigit digits) : Stops isWhiteSpace (front ++ digits).reverse := by
  rw [List.reverse_append]
  refine stops_append (by simpa using hsome) ?_
  cases hreverse : digits.reverse with
  | nil => trivial
  | cons c cs =>
    have hmem : c ∈ digits := by
      rw [← List.mem_reverse, hreverse]
      exact List.mem_cons_self
    exact isWhiteSpace_of_isFieldChar (by simp [isFieldChar, h c hmem])

/-- A value that is a number is a number in JSON, and its text is a value again, which ends
with a digit. -/
theorem isNumber_text {l : Literal}
    (h : (∃ i, l = .int i) ∨ ∃ x, l = .float x ∧ x.isFinite = true) :
    IsJsonNumber l.toJson.compact ∧ Stops isWhiteSpace l.display.toList.reverse ∧
      ∀ after, Stops isDigit after → ((∃ i, l = .int i) → ¬ StartsFraction after) →
        IsValue l.display.toList after l := by
  rcases h with ⟨i, rfl⟩ | ⟨x, rfl, hx⟩
  · have htext : (Literal.int i).display.toList = digitsOfInt i.toInt := by simp [Literal.display]
    rw [htext]
    refine ⟨isJsonNumber_digitsOfInt i.toInt, ?_, fun after hafter hfraction =>
      isValue_int i hafter (hfraction ⟨i, rfl⟩)⟩
    rw [(digitsOfInt_eq i.toInt).1]
    cases decide (i.toInt < 0) with
    | true => exact stops_reverse_digits ['-'] (digitsOfNat_ne_nil _) (run_digitsOfNat _)
    | false => exact stops_reverse_digits [] (digitsOfNat_ne_nil _) (run_digitsOfNat _)
  · have hjson : (Literal.float x).toJson.compact = x.jsonText := by
      simp [Literal.toJson, Json.compact, Json.scalarText, hx]
    have htext : (Literal.float x).display.toList = withFraction (x.shortest .up).positional := by
      simp [Literal.display, Binary64.plainText, Binary64.not_isNaN hx, hx]
    rw [hjson, htext]
    refine ⟨isJsonNumber_jsonText x, ?_, fun after hafter _ =>
      isValue_numeral (Binary64.ofDecimal_shortest .up hx) hafter⟩
    obtain ⟨digits, fraction, hnumeral, hpositional⟩ := withFraction_positional (x.shortest .up)
    rw [hpositional]
    cases (x.shortest .up).negative with
    | true =>
      have hend := stops_reverse_digits ('-' :: digits ++ ['.']) hnumeral.fraction_ne_nil
        hnumeral.run_fraction
      simpa [signed] using hend
    | false =>
      have hend := stops_reverse_digits (digits ++ ['.']) hnumeral.fraction_ne_nil
        hnumeral.run_fraction
      simpa [signed] using hend

/-- A number stays one exactly if it is an integer of 64 bits or closer to a finite float than
to the infinities. -/
theorem staysNumber_iff {s : String} {k : Comparison} {head after : List Char} (n : Numeral)
    (h : Occurrence s k head n.text after) :
    StaysNumber n k head after ↔ n.IsInteger ∨ |n.number| < overflowBound := by
  obtain ⟨hvalue, hafter, hfraction⟩ := (isValue_text_iff n).1 h.value
  constructor
  · intro hstays
    by_contra hnot
    obtain ⟨hinteger, hbound⟩ := not_or.1 hnot
    obtain ⟨x, hx, hfinite, -⟩ := hstays.float hinteger
    rcases n.literal_cases with ⟨hinteger', -⟩ | ⟨-, hbound', -⟩ | ⟨-, -, hinfinite⟩
    · exact hinteger hinteger'
    · exact hbound hbound'
    · rw [hvalue, hinfinite] at hx
      obtain rfl := Literal.float.inj hx
      cases hfinite
  · intro hrange
    have hnumber : (n.IsInteger ∧ ∃ i, k.value = .int i ∧ (i.toInt : ℚ) = n.number) ∨
        (¬ n.IsInteger ∧ ∃ x, k.value = .float x ∧ x.IsNearest n.number) := by
      rw [hvalue]
      rcases n.literal_cases with hint | ⟨hinteger, -, hfloat⟩ | ⟨hinteger, hbound, -⟩
      · exact .inl hint
      · exact .inr ⟨hinteger, hfloat⟩
      · exact absurd (hrange.resolve_left hinteger) (not_lt.2 hbound)
    have hkind : (∃ i, k.value = .int i) ∨ ∃ x, k.value = .float x ∧ x.isFinite = true := by
      rcases hnumber with ⟨-, i, hi, -⟩ | ⟨-, x, hx, hnearest⟩
      · exact .inl ⟨i, hi⟩
      · exact .inr ⟨x, hx, hnearest.1⟩
    obtain ⟨hjson, hend, hagain⟩ := isNumber_text hkind
    have hwhole : (∃ i, k.value = .int i) → ¬ StartsFraction after := by
      rintro ⟨i, hi⟩
      rcases hnumber with ⟨hinteger, -⟩ | ⟨-, x, hx, -⟩
      · exact hfraction hinteger.1
      · rw [hi] at hx
        cases hx
    have hclosing : Stops isDigit [')'] := (by decide : isDigit ')' = false)
    refine ⟨fun hinteger => ?_, fun hinteger => ?_, hjson, h.replace (hagain after hafter hwhole),
      fun o hdepth => h.parse_alone (hagain [')'] hclosing fun _ => ?_) hend hdepth⟩
    · rcases hnumber with ⟨-, hint⟩ | ⟨hnot, -⟩
      · exact hint
      · exact absurd hinteger hnot
    · rcases hnumber with ⟨hint, -⟩ | ⟨-, x, hx, hnearest⟩
      · exact absurd hint hinteger
      · exact ⟨x, hx, hnearest.1, hnearest⟩
    · exact not_startsFraction_cons (by decide) []

/-- In an expression that is accepted every comparison of the tree stands in its text, and the
numbers that are written there stay numbers up to the bound beyond which they are infinite. -/
theorem numbers_of_parse {o : ParseOptions} {s : String} {e : Expr}
    (h : Expr.parse o s = .ok e) :
    (∀ k, k ∈ e.leaves ↔ ∃ head value after, Occurrence s k head value after) ∧
      ∀ (n : Numeral) (k : Comparison) (head after : List Char),
        Occurrence s k head n.text after →
          (StaysNumber n k head after ↔ n.IsInteger ∨ |n.number| < overflowBound) ∧
            (¬ n.IsInteger → overflowBound ≤ |n.number| →
              k.value = .float (infinity n.negative)) := by
  refine ⟨mem_leaves_iff h, fun n k head after hoccurs => ⟨staysNumber_iff n hoccurs, ?_⟩⟩
  intro hinteger hbound
  rw [((isValue_text_iff n).1 hoccurs.value).1]
  rcases n.literal_cases with ⟨hint, -⟩ | ⟨-, hbound', -⟩ | ⟨-, -, hinfinite⟩
  · exact absurd hint hinteger
  · exact absurd hbound' (not_lt.2 hbound)
  · exact hinfinite

theorem natOfDigits_one_zeros (k : Nat) :
    ((natOfDigits ('1' :: List.replicate k '0') : Nat) : ℚ) = 10 ^ k := by
  have hdigits := natOfDigits_append_zeros ['1'] k
  have hone : natOfDigits ['1'] = 1 := by decide
  rw [hone, Nat.one_mul, List.singleton_append, Nat.pow_eq] at hdigits
  rw [hdigits, Nat.cast_pow, Nat.cast_ofNat]

/-- A one with 400 zeros is accepted and becomes an infinity; minus seven with a zero before it
stays the integer that it is. -/
theorem numbers_of_parse_manyDigits :
    let many : Numeral := ⟨false, '1' :: List.replicate 400 '0', none, List.cons_ne_nil _ _,
      (run_cons _ _ _).2 ⟨rfl, run_zeros 400⟩, fun _ h => nomatch h⟩
    let few : Numeral := ⟨true, ['0', '7'], none, List.cons_ne_nil _ _,
      (run_cons _ _ _).2 ⟨rfl, (run_cons _ _ _).2 ⟨rfl, run_nil _⟩⟩, fun _ h => nomatch h⟩
    (Expr.parse .default (String.ofList (['a', '='] ++ many.text)) =
        .ok (.group .and [.comparison ⟨"a", "=", many.literal⟩]) ∧
      many.literal = .float (infinity false) ∧
        ¬ StaysNumber many ⟨"a", "=", many.literal⟩ ['a', '='] [')']) ∧
    (Expr.parse .default (String.ofList (['a', '='] ++ few.text)) =
        .ok (.group .and [.comparison ⟨"a", "=", few.literal⟩]) ∧
      StaysNumber few ⟨"a", "=", few.literal⟩ ['a', '='] [')']) := by
  intro many few
  have hclosing : Stops isDigit [')'] := (by decide : isDigit ')' = false)
  have hfield : Run isFieldChar ['a'] := (run_cons _ _ _).2 ⟨rfl, run_nil _⟩
  have haccepted (n : Numeral) (hend : Stops isWhiteSpace n.text.reverse) :
      Occurrence (String.ofList (['a', '='] ++ n.text)) ⟨"a", "=", n.literal⟩ ['a', '='] n.text
          [')'] ∧
        Expr.parse .default (String.ofList (['a', '='] ++ n.text)) =
          .ok (.group .and [.comparison ⟨"a", "=", n.literal⟩]) := by
    have hvalue : IsValue n.text [')'] n.literal :=
      (isValue_text_iff n).2 ⟨rfl, hclosing, fun _ => not_startsFraction_cons (by decide) []⟩
    have hoccurs := occurrence_alone (List.cons_ne_nil 'a' []) hfield .equal hvalue hend
    exact ⟨hoccurs, hoccurs.parse_alone hvalue hend (by decide)⟩
  have hmany := haccepted many (stops_reverse_digits [] many.digits_ne_nil many.run_digits)
  have hfew := haccepted few (stops_reverse_digits ['-'] few.digits_ne_nil few.run_digits)
  have hnumber : many.number = 10 ^ 400 := by
    rw [Numeral.number_of_fraction_eq_none rfl]
    exact natOfDigits_one_zeros 400
  have hbound : overflowBound ≤ |many.number| := by
    have hpow : (10 : ℚ) ^ (309 : Int) ≤ 10 ^ (400 : Int) :=
      zpow_le_zpow_right₀ (by norm_num) (by decide)
    have hcast : (10 : ℚ) ^ (400 : Int) = 10 ^ 400 := zpow_natCast 10 400
    rw [hnumber, abs_of_nonneg (by positivity), ← hcast]
    exact overflowBound_lt.le.trans hpow
  have hmin : Int64.minValue.toInt = -9223372036854775808 := by decide
  have hmax : Int64.maxValue.toInt = 9223372036854775807 := by decide
  have hlarge : ¬ many.IsInteger := by
    rintro ⟨-, -, hhigh⟩
    have hlimit : ((9223372036854775807 : Int) : ℚ) < 10 ^ 19 := by norm_num
    have hpow : (10 : ℚ) ^ 19 ≤ 10 ^ 400 := pow_le_pow_right₀ (by norm_num) (by decide)
    rw [hnumber, hmax] at hhigh
    exact absurd hhigh (not_le.2 (hlimit.trans_le hpow))
  have hsmall : few.IsInteger := by
    have hseven : wholeNumber few.negative few.digits = -7 := by decide
    rw [Numeral.IsInteger, Numeral.number_of_fraction_eq_none rfl, hseven, hmin, hmax]
    exact ⟨rfl, by norm_num, by norm_num⟩
  obtain ⟨hstays, hinfinite⟩ := (numbers_of_parse hmany.2).2 many _ _ _ hmany.1
  obtain ⟨hstays', -⟩ := (numbers_of_parse hfew.2).2 few _ _ _ hfew.1
  refine ⟨⟨hmany.2, ?_, fun hmost => ?_⟩, hfew.2, hstays'.2 (.inl hsmall)⟩
  · have hvalue := hinfinite hlarge hbound
    dsimp only at hvalue
    rw [hvalue]
  · rcases hstays.1 hmost with hint | hless
    · exact hlarge hint
    · exact absurd hbound (not_le.2 hless)

end Sift.Grammar

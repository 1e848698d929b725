import Sift.Proofs.Lexing

/-!
# Values are read as the grammar has them

Each reader is compared with its relation in both directions: what the relation allows
is read with the right length and meaning, and what is read is allowed. The second
direction follows from the first, because a text that has no part of the wanted kind in
front is not read.
-/

namespace Sift.Grammar

open Sift.Text

theorem takeSign_signed {negative : Bool} {d : Char} {s : List Char} (hd : isDigit d = true) :
    takeSign (signed negative (d :: s)) = (negative, d :: s) := by
  cases negative with
  | true => rfl
  | false =>
    have hminus : d ≠ '-' := by rintro rfl; revert hd; decide
    have hplus : d ≠ '+' := by rintro rfl; revert hd; decide
    change takeSign (d :: s) = (false, d :: s)
    unfold takeSign
    split
    · next h => exact absurd (List.cons.inj h).1 hminus
    · next h => exact absurd (List.cons.inj h).1 hplus
    · rfl

theorem all_isDigit {s : List Char} (h : Run isDigit s) : s.all isDigit = true :=
  List.all_eq_true.2 h

theorem intOfText?_signed {negative : Bool} {digits : List Char} (hsome : digits ≠ [])
    (hdigits : Run isDigit digits) :
    intOfText? (signed negative digits) = some (wholeNumber negative digits) := by
  obtain ⟨d, ds, rfl⟩ := List.exists_cons_of_ne_nil hsome
  simp only [intOfText?, takeSign_signed ((run_cons _ _ _).1 hdigits).1, all_isDigit hdigits]
  simp [wholeNumber]

theorem intOfText?_fraction {negative : Bool} {digits fraction : List Char}
    (hsome : digits ≠ []) (hdigits : Run isDigit digits) :
    intOfText? (signed negative (digits ++ '.' :: fraction)) = none := by
  obtain ⟨d, ds, rfl⟩ := List.exists_cons_of_ne_nil hsome
  simp only [intOfText?, List.cons_append, takeSign_signed ((run_cons _ _ _).1 hdigits).1]
  have hpoint : isDigit '.' = false := by decide
  simp [hpoint]

theorem ofText?_fraction {negative : Bool} {digits fraction : List Char} (hsome : digits ≠ [])
    (hdigits : Run isDigit digits) (hdigits' : Run isDigit fraction) :
    Decimal.ofText? (signed negative (digits ++ '.' :: fraction)) =
      some ⟨negative, natOfDigits (digits ++ fraction), -fraction.length⟩ := by
  have hpoint : Stops isDigit ('.' :: fraction) := by simp; decide
  have hfraction : Stops isDigit [] := trivial
  have hdigit : isDigit '.' = false := by decide
  have htake := takeWhile_run hdigits' hfraction
  have hdrop := dropWhile_run hdigits' hfraction
  rw [List.append_nil] at htake hdrop
  obtain ⟨d, ds, rfl⟩ := List.exists_cons_of_ne_nil hsome
  have hsign : takeSign (signed negative (d :: ds ++ '.' :: fraction)) =
      (negative, d :: ds ++ '.' :: fraction) := takeSign_signed ((run_cons _ _ _).1 hdigits).1
  simp only [Decimal.ofText?, hsign, takeWhile_run hdigits hpoint, dropWhile_run hdigits hpoint,
    htake, hdrop]
  simp [Decimal.exponentOfText?]

def fractionDigits : List Char → List Char
  | '.' :: s => s.takeWhile isDigit
  | _ => []

theorem fractionDigits_eq_nil {after : List Char} (h : ¬ StartsFraction after) :
    fractionDigits after = [] := by
  unfold fractionDigits
  split
  · next s =>
    cases s with
    | nil => rfl
    | cons c s =>
      have hc : isDigit c = false := by simpa [StartsFraction] using h
      simp [hc]
  · rfl

theorem fractionDigits_append {fraction after : List Char} (hdigits : Run isDigit fraction)
    (hend : Stops isDigit after) : fractionDigits ('.' :: (fraction ++ after)) = fraction :=
  takeWhile_run hdigits hend

theorem numberLength_eq {sign : Nat} {s digits after : List Char}
    (hsign : (if s.head? = some '-' then 1 else 0) = sign) (hdrop : s.drop sign = digits ++ after)
    (hdigits : Run isDigit digits) (hend : Stops isDigit after) :
    numberLength s =
      if digits = [] then 0
      else if fractionDigits after = [] then sign + digits.length
      else sign + digits.length + 1 + (fractionDigits after).length := by
  have hafter : s.drop (sign + digits.length) = after := by
    rw [← List.drop_drop, hdrop, List.drop_left]
  simp only [numberLength, hsign, hdrop, takeWhile_run hdigits hend, hafter,
    List.length_eq_zero_iff]
  cases after with
  | nil => rfl
  | cons c t =>
    by_cases hc : c = '.'
    · subst hc
      simp only [fractionDigits, List.length_eq_zero_iff]
    · simp [fractionDigits, hc]

theorem numberLength_signed (negative : Bool) {digits after : List Char} (hsome : digits ≠ [])
    (hdigits : Run isDigit digits) (hend : Stops isDigit after) :
    numberLength (signed negative digits ++ after) =
      if fractionDigits after = [] then (signed negative digits).length
      else (signed negative digits).length + 1 + (fractionDigits after).length := by
  cases negative with
  | true =>
    have h := numberLength_eq (s := '-' :: (digits ++ after)) rfl rfl hdigits hend
    simpa [hsome, signed, Nat.add_comm 1] using h
  | false =>
    have hhead : (if (digits ++ after).head? = some '-' then 1 else 0) = 0 := by
      obtain ⟨d, ds, rfl⟩ := List.exists_cons_of_ne_nil hsome
      have hminus : d ≠ '-' := by
        rintro rfl
        exact absurd ((run_cons _ _ _).1 hdigits).1 (by decide)
      simp [hminus]
    have h := numberLength_eq hhead rfl hdigits hend
    simpa [hsome, signed] using h

theorem readNumber?_whole {negative : Bool} {digits after : List Char} (hsome : digits ≠ [])
    (hdigits : Run isDigit digits) (hend : Stops isDigit after)
    (hfraction : ¬ StartsFraction after) :
    readNumber? (signed negative digits ++ after) =
      some (wholeLiteral negative digits, (signed negative digits).length) := by
  have hlength := numberLength_signed negative hsome hdigits hend
  rw [if_pos (fractionDigits_eq_nil hfraction)] at hlength
  simp only [readNumber?, hlength, List.take_left, intOfText?_signed hsome hdigits, wholeLiteral]
  split <;> rfl

theorem readNumber?_fraction {negative : Bool} {digits fraction after : List Char}
    (hsome : digits ≠ []) (hdigits : Run isDigit digits) (hsome' : fraction ≠ [])
    (hdigits' : Run isDigit fraction) (hend : Stops isDigit after) :
    readNumber? (signed negative (digits ++ '.' :: fraction) ++ after) =
      some (fractionLiteral negative digits fraction,
        (signed negative (digits ++ '.' :: fraction)).length) := by
  have hpoint : Stops isDigit ('.' :: (fraction ++ after)) := by simp; decide
  have hdigits'' := fractionDigits_append hdigits' hend
  have htext : signed negative (digits ++ '.' :: fraction) ++ after =
      signed negative digits ++ '.' :: (fraction ++ after) := by
    cases negative <;> simp [signed]
  have hlength : numberLength (signed negative (digits ++ '.' :: fraction) ++ after) =
      (signed negative (digits ++ '.' :: fraction)).length := by
    rw [htext, numberLength_signed negative hsome hdigits hpoint, hdigits'', if_neg hsome']
    cases negative <;> simp [signed] <;> omega
  simp only [readNumber?, hlength, List.take_left, intOfText?_fraction hsome hdigits,
    ofText?_fraction hsome hdigits hdigits', Option.map_some, fractionLiteral]

theorem readNumber?_eq_none {sign : Nat} {s : List Char}
    (hsign : (if s.head? = some '-' then 1 else 0) = sign)
    (hend : Stops isDigit (s.drop sign)) : readNumber? s = none := by
  have hlength : numberLength s = 0 := by
    have hdrop : s.drop sign = [] ++ s.drop sign := rfl
    rw [numberLength_eq hsign hdrop (run_nil _) hend, if_pos rfl]
  simp [readNumber?, hlength, intOfText?, takeSign, Decimal.ofText?]

/-- The place after a run of digits goes on as a fraction, and then to its end. -/
theorem exists_fraction {after : List Char} (h : StartsFraction after) :
    ∃ fraction rest, after = '.' :: (fraction ++ rest) ∧ fraction ≠ [] ∧
      Run isDigit fraction ∧ Stops isDigit rest := by
  unfold StartsFraction at h
  split at h
  · next c s =>
    obtain ⟨run, rest, hs, hrun, hrest⟩ := exists_run_append isDigit s
    exact ⟨c :: run, rest, by simp [hs], by simp, by simp [h, hrun], hrest⟩
  · exact h.elim

theorem exists_signed (s : List Char) :
    ∃ negative digits after, s = signed negative digits ++ after ∧
      Run isDigit digits ∧ Stops isDigit after ∧ (digits = [] → readNumber? s = none) := by
  by_cases hsign : s.head? = some '-'
  · obtain ⟨t, rfl⟩ := List.head?_eq_some_iff.1 hsign
    obtain ⟨digits, after, ht, hdigits, hend⟩ := exists_run_append isDigit t
    refine ⟨true, digits, after, by simp [signed, ht], hdigits, hend, ?_⟩
    rintro rfl
    exact readNumber?_eq_none rfl (by simpa [ht] using hend)
  · obtain ⟨digits, after, hs, hdigits, hend⟩ := exists_run_append isDigit s
    refine ⟨false, digits, after, hs, hdigits, hend, ?_⟩
    rintro rfl
    exact readNumber?_eq_none (if_neg hsign) (by simpa [hs] using hend)

theorem isValue_of_readNumber? {s : List Char} {literal : Literal} {n : Nat}
    (h : readNumber? s = some (literal, n)) :
    ∃ value after, s = value ++ after ∧ value.length = n ∧ IsValue value after literal := by
  obtain ⟨negative, digits, after, rfl, hdigits, hend, hnone⟩ := exists_signed s
  have hsome : digits ≠ [] := fun hnil => by simp [hnone hnil] at h
  by_cases hfraction : StartsFraction after
  · obtain ⟨fraction, rest, rfl, hsome', hdigits', hend'⟩ := exists_fraction hfraction
    have htext : signed negative digits ++ '.' :: (fraction ++ rest) =
        signed negative (digits ++ '.' :: fraction) ++ rest := by
      cases negative <;> simp [signed]
    rw [htext, readNumber?_fraction hsome hdigits hsome' hdigits' hend'] at h
    obtain ⟨rfl, rfl⟩ := Prod.mk.inj (Option.some.inj h)
    exact ⟨_, rest, htext, rfl, .fraction negative hsome hdigits hsome' hdigits' hend'⟩
  · rw [readNumber?_whole hsome hdigits hend hfraction] at h
    obtain ⟨rfl, rfl⟩ := Prod.mk.inj (Option.some.inj h)
    exact ⟨_, after, rfl, rfl, .whole negative hsome hdigits hend hfraction⟩

theorem quotedLength?_append {raw text after : List Char} (h : Quoted raw text) :
    quotedLength? (raw ++ '\'' :: after) = some raw.length := by
  induction h with
  | nil => rfl
  | @plain c raw text hquote hescape h ih =>
    rw [List.cons_append, quotedLength?]
    · simp [ih]
    · exact hquote
    · exact fun hc => absurd hc hescape
    · exact fun _ _ hc => absurd hc hescape
  | @escaped c raw text h ih =>
    have hstep : quotedLength? ('\\' :: c :: (raw ++ '\'' :: after)) =
        (quotedLength? (raw ++ '\'' :: after)).map (· + 2) := rfl
    simpa [ih] using hstep

theorem unescape_of_quoted {raw text : List Char} (h : Quoted raw text) :
    unescape raw = text := by
  induction h with
  | nil => rfl
  | @plain c raw text hquote hescape h ih =>
    cases raw <;> simp_all [unescape]
  | escaped h ih => simp [unescape, ih]

theorem quoted_of_quotedLength? {s : List Char} {n : Nat} (h : quotedLength? s = some n) :
    ∃ raw text after, s = raw ++ '\'' :: after ∧ raw.length = n ∧ Quoted raw text := by
  fun_induction quotedLength? s generalizing n with
  | case1 => simp at h
  | case2 s => exact ⟨[], [], s, rfl, Option.some.inj h, .nil⟩
  | case3 => simp at h
  | case4 c s ih =>
    obtain ⟨m, hm, rfl⟩ := Option.map_eq_some_iff.1 h
    obtain ⟨raw, text, after, rfl, rfl, hraw⟩ := ih hm
    exact ⟨'\\' :: c :: raw, c :: text, after, rfl, rfl, .escaped hraw⟩
  | case5 c s hquote hlast hpair ih =>
    obtain ⟨m, hm, rfl⟩ := Option.map_eq_some_iff.1 h
    have hescape : c ≠ '\\' := by
      intro hc
      cases s with
      | nil => exact hlast hc rfl
      | cons d s => exact hpair d s hc rfl
    obtain ⟨raw, text, after, rfl, rfl, hraw⟩ := ih hm
    exact ⟨c :: raw, c :: text, after, rfl, rfl, .plain hquote hescape hraw⟩

theorem mem_keywords {word : List Char} {literal : Literal}
    (h : (String.ofList word, literal) ∈ keywords) :
    (word = ['t', 'r', 'u', 'e'] ∧ literal = .bool true) ∨
      (word = ['f', 'a', 'l', 's', 'e'] ∧ literal = .bool false) ∨
      (word = ['n', 'u', 'l', 'l'] ∧ literal = .null) := by
  simpa [keywords, ← String.toList_inj] using h

theorem literalOfWord_of_mem {word : List Char} {literal : Literal}
    (h : (String.ofList word, literal) ∈ keywords) : literalOfWord word = literal := by
  obtain ⟨rfl, rfl⟩ | ⟨rfl, rfl⟩ | ⟨rfl, rfl⟩ := mem_keywords h
  all_goals rfl

theorem literalOfWord_of_not_mem {word : List Char}
    (h : ∀ literal, (String.ofList word, literal) ∉ keywords) :
    literalOfWord word = .string (String.ofList word) := by
  unfold literalOfWord
  split
  · next heq => exact absurd (by simp [keywords, heq]) (h (.bool true))
  · next heq => exact absurd (by simp [keywords, heq]) (h (.bool false))
  · next heq => exact absurd (by simp [keywords, heq]) (h .null)
  · rfl

theorem startsWord_of_mem_keywords {word : List Char} {literal : Literal}
    (h : (String.ofList word, literal) ∈ keywords) :
    ∃ c cs, word = c :: cs ∧ startsWord c = true ∧ Run isWordChar cs := by
  obtain ⟨rfl, -⟩ | ⟨rfl, -⟩ | ⟨rfl, -⟩ := mem_keywords h
  all_goals exact ⟨_, _, rfl, by decide, by simp only [run_cons, run_nil]; decide⟩

theorem startsWord_classes {c : Char} (h : startsWord c = true) :
    isWordChar c = true ∧ isDigit c = false ∧ c ≠ '-' ∧ c ≠ '\'' := by
  have hword : isWordChar c = true := by
    simp only [startsWord, isWordChar, Bool.or_eq_true, decide_eq_true_eq] at h ⊢
    rcases h with h | h <;> simp [h]
  refine ⟨hword, ?_, by rintro rfl; revert h; decide, by rintro rfl; revert h; decide⟩
  have ha : ('a' : Char).val.toNat = 97 := rfl
  have hA : ('A' : Char).val.toNat = 65 := rfl
  have h9 : ('9' : Char).val.toNat = 57 := rfl
  simp only [startsWord, isLetter, isDigit, Bool.or_eq_true, Bool.and_eq_true, decide_eq_true_eq,
    Bool.and_eq_false_iff, decide_eq_false_iff_not, Char.le_def, UInt32.le_iff_toNat_le] at *
  obtain (⟨hc, -⟩ | ⟨hc, -⟩) | rfl := h
  · omega
  · omega
  · decide

theorem readNumber?_word {c : Char} {s : List Char} (h : isDigit c = false) (hminus : c ≠ '-') :
    readNumber? (c :: s) = none :=
  @readNumber?_eq_none 0 (c :: s) (by simp [hminus]) (by simpa using h)

theorem readValue_word {c : Char} {cs after : List Char} (hstart : startsWord c = true)
    (hword : Run isWordChar cs) (hend : Stops isWordChar after) :
    readValue (c :: cs ++ after) = .value (literalOfWord (c :: cs)) (c :: cs).length := by
  obtain ⟨hchar, hdigit, hminus, hquote⟩ := startsWord_classes hstart
  have htake : (c :: (cs ++ after)).takeWhile isWordChar = c :: cs :=
    @takeWhile_run isWordChar (c :: cs) after (by simp [hchar, hword]) hend
  simp [readValue, readNumber?_word hdigit hminus, hquote, hstart, htake]

theorem readValue_append {value after : List Char} {literal : Literal}
    (h : IsValue value after literal) :
    readValue (value ++ after) = .value literal value.length := by
  cases h with
  | whole negative hsome hdigits hend hfraction =>
    simp only [readValue, readNumber?_whole hsome hdigits hend hfraction]
  | fraction negative hsome hdigits hsome' hdigits' hend =>
    simp only [readValue, readNumber?_fraction hsome hdigits hsome' hdigits' hend]
  | @quoted raw text _ h =>
    have hnumber : readNumber? ('\'' :: (raw ++ '\'' :: after)) = none :=
      readNumber?_word rfl (by decide)
    simp [readValue, hnumber, quotedLength?_append h, unescape_of_quoted h]
  | keyword h hend =>
    obtain ⟨c, cs, rfl, hstart, hword⟩ := startsWord_of_mem_keywords h
    rw [readValue_word hstart hword hend, literalOfWord_of_mem h]
  | word hstart hword hend hkeyword =>
    rw [readValue_word hstart hword hend, literalOfWord_of_not_mem hkeyword]

theorem isValue_of_startsWord {c : Char} {s : List Char} (h : startsWord c = true) :
    ∃ word after literal, c :: s = word ++ after ∧ IsValue word after literal := by
  obtain ⟨cs, after, rfl, hword, hend⟩ := exists_run_append isWordChar s
  by_cases hkeyword : ∃ literal, (String.ofList (c :: cs), literal) ∈ keywords
  · obtain ⟨literal, hmem⟩ := hkeyword
    exact ⟨c :: cs, after, literal, rfl, .keyword hmem hend⟩
  · exact ⟨c :: cs, after, _, rfl, .word h hword hend (fun l hl => hkeyword ⟨l, hl⟩)⟩

theorem isValue_of_readValue {s : List Char} {literal : Literal} {n : Nat}
    (h : readValue s = .value literal n) :
    ∃ value after, s = value ++ after ∧ value.length = n ∧ IsValue value after literal := by
  cases hnumber : readNumber? s with
  | some number =>
    obtain ⟨number, m⟩ := number
    simp only [readValue, hnumber, ValueReading.value.injEq] at h
    obtain ⟨rfl, rfl⟩ := h
    exact isValue_of_readNumber? hnumber
  | none =>
    suffices hvalue : ∃ value after literal, s = value ++ after ∧ IsValue value after literal by
      obtain ⟨value, after, literal', rfl, hvalue⟩ := hvalue
      rw [readValue_append hvalue, ValueReading.value.injEq] at h
      obtain ⟨rfl, rfl⟩ := h
      exact ⟨value, after, rfl, rfl, hvalue⟩
    cases s with
    | nil => simp [readValue, hnumber] at h
    | cons c s =>
      by_cases hquote : c = '\''
      · subst hquote
        cases hlength : quotedLength? s with
        | none => simp [readValue, hnumber, hlength] at h
        | some m =>
          obtain ⟨raw, text, after, rfl, -, hraw⟩ := quoted_of_quotedLength? hlength
          exact ⟨'\'' :: raw ++ ['\''], after, _, by simp, .quoted hraw⟩
      · by_cases hstart : startsWord c = true
        · exact isValue_of_startsWord hstart
        · simp [readValue, hnumber, hquote, hstart] at h

theorem readValue_quote (s : List Char) : readValue ('\'' :: s) =
    match quotedLength? s with
    | none => .unterminated
    | some n => .value (.string (String.ofList (unescape (s.take n)))) (n + 2) := by
  have hnumber : readNumber? ('\'' :: s) = none := readNumber?_word rfl (by decide)
  cases hlength : quotedLength? s <;> simp [readValue, hnumber, hlength]

theorem exists_of_readValue_eq_unterminated {s : List Char} (h : readValue s = .unterminated) :
    ∃ t, s = '\'' :: t ∧ quotedLength? t = none := by
  cases hnumber : readNumber? s with
  | some number => simp [readValue, hnumber] at h
  | none =>
    cases s with
    | nil => simp [readValue, hnumber] at h
    | cons c t =>
      by_cases hquote : c = '\''
      · subst hquote
        rw [readValue_quote] at h
        cases hlength : quotedLength? t with
        | none => exact ⟨t, rfl, hlength⟩
        | some n => simp [hlength] at h
      · by_cases hstart : startsWord c = true
        · simp [readValue, hnumber, hquote, hstart] at h
        · simp [readValue, hnumber, hquote, hstart] at h

end Sift.Grammar

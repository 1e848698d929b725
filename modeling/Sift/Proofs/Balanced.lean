import Sift.Expr.Normal
import Sift.Proofs.ValueReading

/-!
# Balanced texts

A text is balanced if its quoted parts and its parentheses end in the order in which
they begin. The matching of parentheses passes over a balanced text without a change of
its state, so a balanced text in parentheses is a single group, and one with more text
behind it is not. Nothing else is a single group: what the matching has passed over when it
closes a group is balanced. So a normalized text is normalized to itself exactly if it came
from a balanced one. Comparisons and strict sequences of items are balanced.
-/

namespace Sift.Grammar

open Sift.Text

inductive Balanced : List Char → Prop
  | nil : Balanced []
  | plain {c : Char} {s : List Char} (hc : c ∉ ['(', ')', '\'']) (h : Balanced s) :
      Balanced (c :: s)
  | quoted {raw text s : List Char} (hraw : Quoted raw text) (h : Balanced s) :
      Balanced ('\'' :: raw ++ '\'' :: s)
  | group {inner s : List Char} (hinner : Balanced inner) (h : Balanced s) :
      Balanced ('(' :: inner ++ ')' :: s)

namespace Balanced

theorem append {s t : List Char} (hs : Balanced s) (ht : Balanced t) : Balanced (s ++ t) := by
  induction hs with
  | nil => exact ht
  | plain hc _ ih => exact plain hc ih
  | quoted hraw _ ih => simpa using quoted hraw ih
  | group hinner _ _ ih => simpa using group hinner ih

/-- The marks that balance a text are among those that belong to no part of a comparison. -/
theorem classes {c : Char} (h : c ∈ ['(', ')', '\'']) :
    isFieldChar c = false ∧ isWordChar c = false ∧ isDigit c = false ∧ isBlank c = false ∧
      startsOperator c = false ∧ c ≠ '.' :=
  mark_classes (List.mem_append_left ['&', '|'] h)

theorem of_run {p : Char → Bool} (hp : ∀ c ∈ ['(', ')', '\''], p c = false) {s : List Char}
    (h : Run p s) : Balanced s := by
  induction s with
  | nil => exact nil
  | cons c s ih =>
    obtain ⟨hc, hs⟩ := (run_cons _ _ _).1 h
    refine plain (fun hmem => ?_) (ih hs)
    rw [hp c hmem] at hc
    cases hc

theorem of_isOperator {op after : List Char} (h : IsOperator op after) : Balanced op :=
  of_run (fun _ hc => (classes hc).2.2.2.2.1) h.run

theorem signed {negative : Bool} {s : List Char} (h : Balanced s) :
    Balanced (signed negative s) := by
  cases negative with
  | true => exact plain (by decide) h
  | false => exact h

theorem of_isValue {value after : List Char} {literal : Literal}
    (h : IsValue value after literal) : Balanced value := by
  have hdigit : ∀ c ∈ ['(', ')', '\''], isDigit c = false := fun c hc => (classes hc).2.2.1
  have hword : ∀ c ∈ ['(', ')', '\''], isWordChar c = false := fun c hc => (classes hc).2.1
  cases h with
  | whole negative _ hdigits => exact signed (of_run hdigit hdigits)
  | fraction negative _ hdigits _ hdigits' =>
    exact signed ((of_run hdigit hdigits).append (plain (by decide) (of_run hdigit hdigits')))
  | quoted hraw => exact quoted hraw nil
  | keyword h =>
    obtain ⟨c, cs, rfl, hstart, hrun⟩ := startsWord_of_mem_keywords h
    exact of_run hword ((run_cons _ _ _).2 ⟨(startsWord_classes hstart).1, hrun⟩)
  | word hstart hrun =>
    exact of_run hword ((run_cons _ _ _).2 ⟨(startsWord_classes hstart).1, hrun⟩)

theorem of_isComparison {run after : List Char} {k : Comparison}
    (h : IsComparison run after k) : Balanced run := by
  obtain ⟨-, hfield, hgap, hoperator, hgap', hvalue⟩ := h
  have hblank : ∀ c ∈ ['(', ')', '\''], isBlank c = false := fun c hc => (classes hc).2.2.2.1
  exact ((((of_run (fun c hc => (classes hc).1) hfield).append (of_run hblank hgap)).append
    (of_isOperator hoperator)).append (of_run hblank hgap')).append (of_isValue hvalue)

theorem blank {c : Char} {s : List Char} (hc : isBlank c = true) (h : Balanced s) :
    Balanced (c :: s) := by
  refine plain (fun hmem => ?_) h
  rw [(classes hmem).2.2.2.1] at hc
  cases hc

theorem glyph (k : Connector) {s : List Char} (h : Balanced s) : Balanced (k.glyph :: s) :=
  plain (by cases k <;> decide) h

/-- Stray characters are the only ones that could unbalance a sequence of items. -/
theorem of_items {text after : List Char} {es : List Expr} {ks : List Connector}
    (h : Items true text after es ks) : Balanced text := by
  induction h with
  | nil => exact nil
  | blank hc _ ih => exact blank hc ih
  | connector k _ ih => exact glyph k ih
  | group _ _ _ ihinner ih => exact group ihinner ih
  | comparison hc _ ih => exact (of_isComparison hc).append ih
  | stray hstrict => cases hstrict

end Balanced

open Sift.Expr (closesAtEnd isSingleGroup normalizeChars)

theorem closesAtEnd_quoted {raw text : List Char} (h : Quoted raw text) (depth : Nat)
    (s : List Char) :
    closesAtEnd .quoted depth (raw ++ '\'' :: s) = closesAtEnd .plain depth s := by
  induction h with
  | nil => rfl
  | plain hquote hescape _ ih => simpa [closesAtEnd, hquote, hescape] using ih
  | escaped _ ih => simpa [closesAtEnd] using ih

theorem closesAtEnd_balanced {b : List Char} (h : Balanced b) {depth : Nat} (hd : 0 < depth)
    (s : List Char) : closesAtEnd .plain depth (b ++ s) = closesAtEnd .plain depth s := by
  induction h generalizing depth s with
  | nil => rfl
  | @plain c t hc _ ih =>
    simp only [List.mem_cons, List.not_mem_nil, or_false, not_or] at hc
    obtain ⟨hopen, hclose, hquote⟩ := hc
    simpa [closesAtEnd, hopen, hclose, hquote] using ih hd s
  | @quoted raw text t hraw _ ih =>
    have hstep : closesAtEnd .plain depth ('\'' :: raw ++ '\'' :: t ++ s) =
        closesAtEnd .quoted depth (raw ++ '\'' :: (t ++ s)) := by
      simp [closesAtEnd]
    rw [hstep, closesAtEnd_quoted hraw, ih hd]
  | @group inner t _ _ ihinner ih =>
    have hstep : closesAtEnd .plain depth ('(' :: inner ++ ')' :: t ++ s) =
        closesAtEnd .plain (depth + 1) (inner ++ ')' :: (t ++ s)) := by
      simp [closesAtEnd]
    have hclose : closesAtEnd .plain (depth + 1) (')' :: (t ++ s)) =
        closesAtEnd .plain depth (t ++ s) := by
      simp [closesAtEnd, show ¬ depth + 1 ≤ 1 by omega]
    rw [hstep, ihinner (by omega), hclose, ih hd]

theorem isSingleGroup_balanced {inner : List Char} (h : Balanced inner) (s : List Char) :
    isSingleGroup ('(' :: inner ++ ')' :: s) = decide (s = []) := by
  have hstep : isSingleGroup ('(' :: inner ++ ')' :: s) =
      closesAtEnd .plain 1 (inner ++ ')' :: s) := by
    simp [isSingleGroup]
  rw [hstep, closesAtEnd_balanced h (by omega)]
  simp [closesAtEnd]

/-- A quoted part in which the matching goes on to close groups has come to its end. -/
theorem exists_quoted_of_closesAtEnd {depth : Nat} {s : List Char}
    (h : closesAtEnd .quoted depth s = true) :
    ∃ raw text rest, s = raw ++ '\'' :: rest ∧ Quoted raw text ∧
      closesAtEnd .plain depth rest = true := by
  induction hn : s.length using Nat.strongRecOn generalizing s with
  | ind n ih =>
    subst hn
    cases s with
    | nil => cases h
    | cons c s =>
      by_cases hquote : c = '\''
      · subst hquote
        exact ⟨[], [], s, rfl, .nil, h⟩
      · by_cases hescape : c = '\\'
        · subst hescape
          cases s with
          | nil => cases h
          | cons d s =>
            have hafter : closesAtEnd .quoted depth s = true := by simpa [closesAtEnd] using h
            have hshorter : s.length < s.length + 1 + 1 := by omega
            obtain ⟨raw, text, rest, rfl, hraw, hrest⟩ := ih _ hshorter hafter rfl
            exact ⟨'\\' :: d :: raw, d :: text, rest, rfl, .escaped hraw, hrest⟩
        · simp only [closesAtEnd, hquote, hescape, if_false] at h
          obtain ⟨raw, text, rest, rfl, hraw, hrest⟩ := ih _ (by simp) h rfl
          exact ⟨c :: raw, c :: text, rest, rfl, .plain hquote hescape hraw, hrest⟩

/-- The matching closes the innermost group behind a balanced text. A group inside it and
the text behind that group are two smaller cases. -/
theorem exists_balanced_of_closesAtEnd {depth : Nat} {s : List Char}
    (h : closesAtEnd .plain (depth + 1) s = true) :
    ∃ b rest, s = b ++ ')' :: rest ∧ Balanced b ∧
      if depth = 0 then rest = [] else closesAtEnd .plain depth rest = true := by
  induction hn : s.length using Nat.strongRecOn generalizing s depth with
  | ind n ih =>
    subst hn
    cases s with
    | nil => cases h
    | cons c s =>
      by_cases hquote : c = '\''
      · subst hquote
        have hquoted : closesAtEnd .quoted (depth + 1) s = true := by
          simpa [closesAtEnd] using h
        obtain ⟨raw, text, t, rfl, hraw, ht⟩ := exists_quoted_of_closesAtEnd hquoted
        obtain ⟨b, rest, rfl, hb, hrest⟩ := ih _ (by simp; omega) ht rfl
        exact ⟨'\'' :: raw ++ '\'' :: b, rest, by simp, .quoted hraw hb, hrest⟩
      · by_cases hopen : c = '('
        · subst hopen
          have hinside : closesAtEnd .plain (depth + 1 + 1) s = true := by
            simpa [closesAtEnd] using h
          obtain ⟨inner, t, rfl, hinner, ht⟩ := ih _ (by simp) hinside rfl
          rw [if_neg (Nat.succ_ne_zero depth)] at ht
          obtain ⟨b, rest, rfl, hb, hrest⟩ := ih _ (by simp; omega) ht rfl
          exact ⟨'(' :: inner ++ ')' :: b, rest, by simp, .group hinner hb, hrest⟩
        · by_cases hclose : c = ')'
          · subst hclose
            refine ⟨[], s, rfl, .nil, ?_⟩
            by_cases hdepth : depth = 0
            · subst hdepth
              simpa [closesAtEnd] using h
            · have hdepth' : ¬ depth + 1 ≤ 1 := by omega
              simpa [closesAtEnd, hdepth, hdepth'] using h
          · simp only [closesAtEnd, hquote, hopen, hclose, if_false] at h
            obtain ⟨b, rest, rfl, hb, hrest⟩ := ih _ (by simp) h rfl
            exact ⟨c :: b, rest, rfl, .plain (by simp [hopen, hclose, hquote]) hb, hrest⟩

theorem isSingleGroup_iff (s : List Char) :
    isSingleGroup s = true ↔ ∃ b, Balanced b ∧ s = '(' :: (b ++ [')']) := by
  constructor
  · intro h
    unfold isSingleGroup at h
    split at h
    · next s =>
      obtain ⟨b, rest, rfl, hb, hrest⟩ := exists_balanced_of_closesAtEnd h
      rw [if_pos rfl] at hrest
      exact ⟨b, hb, by rw [hrest]⟩
    · cases h
  · rintro ⟨b, hb, rfl⟩
    have hend := isSingleGroup_balanced hb []
    simpa using hend

theorem isSingleGroup_parentheses_iff (u : List Char) :
    isSingleGroup ('(' :: (u ++ [')'])) = true ↔ Balanced u := by
  rw [isSingleGroup_iff]
  constructor
  · rintro ⟨b, hb, heq⟩
    rwa [List.append_cancel_right (List.cons.inj heq).2]
  · exact fun hu => ⟨u, hu, rfl⟩

instance (u : List Char) : Decidable (Balanced u) :=
  decidable_of_iff _ (isSingleGroup_parentheses_iff u)

/-- A single group ends at the first parenthesis that has a balanced text before it. -/
theorem eq_nil_iff_of_isSingleGroup {text rest : List Char}
    (h : isSingleGroup ('(' :: text ++ ')' :: rest) = true) : rest = [] ↔ Balanced text := by
  constructor
  · rintro rfl
    exact (isSingleGroup_parentheses_iff text).1 h
  · intro hbalanced
    rw [isSingleGroup_balanced hbalanced] at h
    exact of_decide_eq_true h

theorem isSingleGroup_of_not_balanced {u : List Char} (h : ¬ Balanced u) :
    isSingleGroup u = false := by
  apply Bool.of_not_eq_true
  intro hsingle
  obtain ⟨b, hb, rfl⟩ := (isSingleGroup_iff u).1 hsingle
  exact h (.group hb .nil)

theorem normalizeChars_of_isSingleGroup {s : List Char} (h : isSingleGroup (trim s) = true) :
    normalizeChars s = trim s := if_pos h

theorem normalizeChars_of_not_isSingleGroup {s : List Char}
    (h : isSingleGroup (trim s) = false) : normalizeChars s = '(' :: (trim s ++ [')']) := by
  rw [normalizeChars]
  simp only [h, Bool.false_eq_true, if_false, List.cons_append]

theorem exists_normalizeChars_eq (s : List Char) :
    ∃ inner, normalizeChars s = '(' :: (inner ++ [')']) := by
  cases hsingle : isSingleGroup (trim s) with
  | true =>
    obtain ⟨b, -, hb⟩ := (isSingleGroup_iff _).1 hsingle
    exact ⟨b, (normalizeChars_of_isSingleGroup hsingle).trans hb⟩
  | false => exact ⟨trim s, normalizeChars_of_not_isSingleGroup hsingle⟩

theorem trim_parentheses (s : List Char) : trim ('(' :: (s ++ [')'])) = '(' :: (s ++ [')']) := by
  have hopen : isWhiteSpace '(' = false := by decide
  have hclose : isWhiteSpace ')' = false := by decide
  simp [trim, hopen, hclose]

/-- Exactly the single groups are taken as they are. -/
theorem normalizeChars_eq_trim_iff (s : List Char) :
    normalizeChars s = trim s ↔ isSingleGroup (trim s) = true := by
  cases hsingle : isSingleGroup (trim s) with
  | true => exact iff_of_true (normalizeChars_of_isSingleGroup hsingle) rfl
  | false =>
    rw [normalizeChars_of_not_isSingleGroup hsingle]
    apply iff_of_false _ Bool.false_ne_true
    intro heq
    have hlength := congrArg List.length heq
    simp only [List.length_cons, List.length_append] at hlength
    omega

theorem normalizeChars_parentheses_iff (u : List Char) :
    normalizeChars ('(' :: (u ++ [')'])) = '(' :: (u ++ [')']) ↔ Balanced u := by
  have hiff := normalizeChars_eq_trim_iff ('(' :: (u ++ [')']))
  rwa [trim_parentheses, isSingleGroup_parentheses_iff] at hiff

/-- A second normalization changes nothing exactly if the text is balanced. -/
theorem normalize_normalize_iff (s : String) :
    Expr.normalize (Expr.normalize s) = Expr.normalize s ↔ Balanced (trim s.toList) := by
  simp only [Expr.normalize, String.toList_ofList, String.ofList_inj]
  cases hsingle : isSingleGroup (trim s.toList) with
  | true =>
    obtain ⟨b, hb, hu⟩ := (isSingleGroup_iff _).1 hsingle
    rw [normalizeChars_of_isSingleGroup hsingle, hu, normalizeChars_parentheses_iff]
    exact iff_of_true hb (.group hb .nil)
  | false =>
    rw [normalizeChars_of_not_isSingleGroup hsingle, normalizeChars_parentheses_iff]

/-- The matching of parentheses recognises exactly the balanced texts: a single group is such
a text in parentheses, and a normalized text is normalized to itself exactly if it came from a
text that is balanced without the white space at its ends. -/
theorem matching_recognises_balanced (u s : String) :
    (isSingleGroup u.toList = true ↔ ∃ b : String, Balanced b.toList ∧ u = "(" ++ b ++ ")") ∧
      (Expr.normalize (Expr.normalize s) = Expr.normalize s ↔
        Balanced (trimString s).toList) := by
  constructor
  · rw [isSingleGroup_iff]
    constructor
    · rintro ⟨b, hb, hu⟩
      refine ⟨String.ofList b, by rwa [String.toList_ofList], ?_⟩
      rw [← String.toList_inj, hu]
      simp
    · rintro ⟨b, hb, rfl⟩
      exact ⟨b.toList, hb, by simp⟩
  · rw [normalize_normalize_iff, trimString, String.toList_ofList]

/-- A quote that is escaped does not end the quoted part, and without an end nothing closes. -/
example : isSingleGroup "('\\')')".toList = true ∧ isSingleGroup "('\\')".toList = false := by
  decide

/-- The parentheses at the ends of a balanced text need not belong together. -/
example : Balanced "(a)|(b)".toList ∧ ¬ Balanced "a)|(b".toList := by
  decide

end Sift.Grammar

import Sift.Proofs.Derivation
import Sift.Proofs.Endings

/-!
# What strict parsing accepts

Parsing reads the normalized text as one group with nothing but blanks behind it. In
strict mode the normalization agrees with the grammar: a text is put in parentheses
exactly if it is no group already. So the expressions that strict parsing accepts are
those of the grammar within the nesting limit, each with the tree that it derives.
-/

namespace Sift.Grammar

open Sift.Text Sift.Expr Moment Lexeme

theorem scan_ne_nil {c : Cursor} {x : Char} {s : List Char} (hc : c.rest = x :: s)
    (hx : isBlank x = false) : scan c ≠ [] := by
  intro hnil
  have hfront := front_scan c
  generalize hls : scan c = ls at hfront
  cases hfront with
  | done h => simp [hc] at h
  | blank h hy =>
    obtain ⟨rfl, -⟩ := List.cons.inj (hc.symm.trans h)
    rw [hx] at hy
    cases hy
  | _ => simp [hls] at hnil

theorem scan_eq_nil_iff (c : Cursor) : scan c = [] ↔ Run isBlank c.rest := by
  obtain ⟨gap, after, hc, hgap, hend⟩ := exists_run_append isBlank c.rest
  rw [← scan_skipBlanks c, skipBlanks_eq_drop hc hgap hend]
  have hrest := rest_drop_length hc
  cases after with
  | nil => simpa [scan_nil hrest, hc] using hgap
  | cons x s =>
    have hx : isBlank x = false := hend
    apply iff_of_false (scan_ne_nil hrest hx)
    intro hrun
    rw [hrun x (by simp [hc])] at hx
    cases hx

theorem finish_eq_ok_iff {e e' : Expr} {ls : List Lexeme} :
    finish e ls = .ok e' ↔ ls = [] ∧ e = e' := by
  cases ls <;> simp [finish]

theorem bind_finished_eq_ok_iff {x : Except ParseError Reading} {e : Expr} :
    x.bind Reading.finished = .ok e ↔ ∃ r, x = .ok r ∧ r.behind = [] ∧ r.tree = e := by
  cases x with
  | error error => simp [Except.bind]
  | ok r => simp [Except.bind, Reading.finished, finish_eq_ok_iff]

/-- A text that begins with a parenthesis is read as one group with blanks behind it. -/
theorem ofLexemes_eq_ok_iff {o : ParseOptions} {body : List Char} {e : Expr} :
    ofLexemes o (scan (Cursor.start ('(' :: body))) = .ok e ↔
      ∃ text gap es ks k, body = text ++ ')' :: gap ∧ Run isBlank gap ∧
        Items o.strict text (')' :: gap) es ks ∧ Governs ks k ∧ e = .group k es ∧
        e.depth ≤ o.maxDepth := by
  have hstart : (Cursor.start ('(' :: body)).rest = '(' :: body := rfl
  generalize Cursor.start ('(' :: body) = c at hstart
  have hrest : (c.drop 1).rest = body := by simp [hstart]
  have hbehind {text rest : List Char} (h : body = text ++ ')' :: rest) :
      scan (((c.drop 1).drop text.length).drop 1) = [] ↔ Run isBlank rest := by
    rw [scan_eq_nil_iff, Cursor.rest_drop, rest_drop_length (hrest.trans h)]
    rfl
  rw [scan_opening hstart, ofLexemes_eq_run, bind_finished_eq_ok_iff]
  simp only [run_outer_eq_ok_iff, hrest]
  constructor
  · rintro ⟨r, ⟨text, gap, es, ks, k, hbody, hitems, hk, hdepth, rfl⟩, hgap, rfl⟩
    exact ⟨text, gap, es, ks, k, hbody, (hbehind hbody).1 hgap, hitems, hk, rfl, hdepth⟩
  · rintro ⟨text, gap, es, ks, k, hbody, hgap, hitems, hk, rfl, hdepth⟩
    exact ⟨_, ⟨text, gap, es, ks, k, hbody, hitems, hk, hdepth, rfl⟩, (hbehind hbody).2 hgap, rfl⟩

theorem parse_of_isSingleGroup {o : ParseOptions} {s : String} {body : List Char}
    (hsingle : isSingleGroup ('(' :: body) = true) (htrim : trim s.toList = '(' :: body) :
    Expr.parse o s = ofLexemes o (scan (Cursor.start ('(' :: body))) := by
  rw [← htrim] at hsingle
  rw [Expr.parse, lexemes, normalizeChars_of_isSingleGroup hsingle, htrim]

theorem parse_of_not_isSingleGroup {o : ParseOptions} {s : String}
    (hsingle : isSingleGroup (trim s.toList) = false) :
    Expr.parse o s = ofLexemes o (scan (Cursor.start ('(' :: (trim s.toList ++ [')'])))) := by
  rw [Expr.parse, lexemes, normalizeChars_of_not_isSingleGroup hsingle]

theorem isSingleGroup_of_isGroup {text : List Char} {e : Expr} (h : IsGroup true text e) :
    isSingleGroup text = true := by
  obtain ⟨inner, es, ks, k, rfl, hitems, -⟩ := h
  rw [isSingleGroup_balanced (.of_items hitems)]
  rfl

theorem exists_cons_of_isSingleGroup {text : List Char} (h : isSingleGroup text = true) :
    ∃ body, text = '(' :: body := by
  unfold isSingleGroup at h
  split at h
  · next body => exact ⟨body, rfl⟩
  · cases h

/-- A strict sequence of items that is a single group consists of that group alone. -/
theorem isGroup_of_items {text : List Char} {es : List Expr} {ks : List Connector}
    (h : Items true text [] es ks) (hsingle : isSingleGroup text = true) :
    ∃ e, IsGroup true text e := by
  obtain ⟨body, hbody⟩ := exists_cons_of_isSingleGroup hsingle
  cases h with
  | nil => cases hsingle
  | blank hc =>
    rw [(List.cons.inj hbody).1] at hc
    exact absurd hc (by decide)
  | connector k =>
    have hglyph : k.glyph ≠ '(' := by cases k <;> decide
    exact absurd (List.cons.inj hbody).1 hglyph
  | @group inner s _ ds _ js _ k hinner hk h =>
    rw [isSingleGroup_balanced (.of_items hinner), decide_eq_true_eq] at hsingle
    subst hsingle
    exact ⟨_, inner, ds, js, k, rfl, hinner, hk, rfl⟩
  | comparison hk =>
    obtain ⟨x, s, htext, hx⟩ := hk.startsComparison.exists_cons
    rw [List.append_nil, hbody] at htext
    rw [← (List.cons.inj htext).1] at hx
    exact absurd hx (by decide)
  | stray hstrict => cases hstrict

/-- Only the parenthesis that was put behind a text closes it with blanks behind. -/
theorem eq_of_append_closing {text inner gap : List Char}
    (h : text ++ [')'] = inner ++ ')' :: gap) (hgap : Run isBlank gap) :
    inner = text ∧ gap = [] := by
  rcases List.eq_nil_or_concat gap with rfl | ⟨front, x, rfl⟩
  · exact ⟨(List.append_cancel_right h).symm, rfl⟩
  · have hlast : text ++ [')'] = (inner ++ ')' :: front) ++ [x] := by simpa using h
    have hx := hgap x (by simp)
    rw [← (List.cons.inj (List.append_inj' hlast rfl).2).1] at hx
    exact absurd hx (by decide)

/-- The normalized text is one group in which a sequence of items stands. -/
theorem parse_eq_ok_iff_items {o : ParseOptions} {s : String} {e : Expr} :
    Expr.parse o s = .ok e ↔
      ∃ inner es ks k, normalizeChars s.toList = '(' :: (inner ++ [')']) ∧
        Items o.strict inner [')'] es ks ∧ Governs ks k ∧ e = .group k es ∧
        e.depth ≤ o.maxDepth := by
  obtain ⟨inner, hinner⟩ := exists_normalizeChars_eq s.toList
  rw [Expr.parse, lexemes, hinner, ofLexemes_eq_ok_iff]
  constructor
  · rintro ⟨text, gap, es, ks, k, hbody, hgap, hitems, hk, he, hdepth⟩
    obtain ⟨rfl, rfl⟩ := eq_of_append_closing hbody hgap
    exact ⟨text, es, ks, k, rfl, hitems, hk, he, hdepth⟩
  · rintro ⟨text, es, ks, k, htext, hitems, hk, he, hdepth⟩
    exact ⟨text, [], es, ks, k, (List.cons.inj htext).2, run_nil _, hitems, hk, he, hdepth⟩

/-- Whether a tree is accepted depends on the limit only through its depth. -/
theorem parse_eq_ok_iff_of_eq_ok {o : ParseOptions} {s : String} {e : Expr}
    (h : Expr.parse o s = .ok e) (maxDepth : Nat) :
    Expr.parse ⟨o.strict, maxDepth⟩ s = .ok e ↔ e.depth ≤ maxDepth := by
  obtain ⟨inner, es, ks, k, hinner, hitems, hk, he, -⟩ := parse_eq_ok_iff_items.1 h
  rw [parse_eq_ok_iff_items]
  constructor
  · rintro ⟨-, -, -, -, -, -, -, -, hdepth⟩
    exact hdepth
  · exact fun hdepth => ⟨inner, es, ks, k, hinner, hitems, hk, he, hdepth⟩

/-- Strict parsing accepts the expressions of the grammar that nest no deeper than the
limit, and gives the tree that the grammar derives. -/
theorem parse_strict_eq_ok_iff (maxDepth : Nat) (s : String) (e : Expr) :
    Expr.parse ⟨true, maxDepth⟩ s = .ok e ↔
      IsExpression true (trim s.toList) e ∧ e.depth ≤ maxDepth := by
  cases hsingle : isSingleGroup (trim s.toList) with
  | true =>
    obtain ⟨body, hbody⟩ := exists_cons_of_isSingleGroup hsingle
    rw [hbody] at hsingle ⊢
    rw [parse_of_isSingleGroup hsingle hbody, ofLexemes_eq_ok_iff]
    constructor
    · rintro ⟨text, gap, es, ks, k, rfl, -, hitems, hk, rfl, hdepth⟩
      have hgap := isSingleGroup_balanced (.of_items hitems) gap
      rw [List.cons_append, hsingle, eq_comm, decide_eq_true_eq] at hgap
      subst hgap
      exact ⟨.inl ⟨text, es, ks, k, rfl, hitems, hk, rfl⟩, hdepth⟩
    · rintro ⟨⟨text, es, ks, k, htext, hitems, hk, rfl⟩ | ⟨hgroup, es, ks, k, hitems, -, rfl⟩,
        hdepth⟩
      · exact ⟨text, [], es, ks, k, (List.cons.inj htext).2, run_nil _, hitems, hk, rfl, hdepth⟩
      · exact absurd (isGroup_of_items hitems hsingle) hgroup
  | false =>
    rw [parse_of_not_isSingleGroup hsingle, ofLexemes_eq_ok_iff]
    generalize trim s.toList = u at hsingle
    constructor
    · rintro ⟨text, gap, es, ks, k, htext, hgap, hitems, hk, rfl, hdepth⟩
      obtain ⟨rfl, rfl⟩ := eq_of_append_closing htext hgap
      refine ⟨.inr ⟨?_, es, ks, k, SameEnd.closing.symm.items hitems, hk, rfl⟩, hdepth⟩
      rintro ⟨other, hother⟩
      rw [isSingleGroup_of_isGroup hother] at hsingle
      cases hsingle
    · rintro ⟨hgroup | ⟨-, es, ks, k, hitems, hk, rfl⟩, hdepth⟩
      · rw [isSingleGroup_of_isGroup hgroup] at hsingle
        cases hsingle
      · exact ⟨u, [], es, ks, k, rfl, run_nil _, SameEnd.closing.items hitems, hk, rfl, hdepth⟩

end Sift.Grammar

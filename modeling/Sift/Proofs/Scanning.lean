import Sift.Expr.Parser
import Sift.Proofs.ComparisonReading

/-!
# The lexemes in front of a cursor

One equation for each way in which the text before the cursor can go on. Together they
say what the lexemes of a text are without a look into the scanner: blanks give none, a
comparison gives one and every other character gives its own.
-/

namespace Sift.Grammar

open Sift.Text Lexeme

theorem scan_nil {c : Cursor} (h : c.rest = []) : scan c = [] := by
  rw [scan]
  split
  · rfl
  · next h' => simp [h] at h'

theorem scan_blank {c : Cursor} {x : Char} {s : List Char} (h : c.rest = x :: s)
    (hx : isBlank x = true) : scan c = scan (c.drop 1) := by
  rw [scan]
  split
  · next h' => simp [h] at h'
  · next h' =>
    obtain ⟨rfl, rfl⟩ := List.cons.inj (h.symm.trans h')
    rw [if_pos hx]

theorem scan_skipBlanks (c : Cursor) : scan c.skipBlanks = scan c := by
  obtain ⟨gap, after, hc, hgap, hend⟩ := exists_run_append isBlank c.rest
  rw [skipBlanks_eq_drop hc hgap hend]
  induction gap generalizing c with
  | nil => rw [List.length_nil, drop_zero]
  | cons x gap ih =>
    obtain ⟨hx, hgap'⟩ := (run_cons _ _ _).1 hgap
    rw [scan_blank hc hx, ← ih (c.drop 1) (by simp [hc]) hgap', drop_drop, List.length_cons,
      Nat.add_comm]

theorem scan_parenthesis {c : Cursor} {x : Char} {s : List Char} (hx : x ∈ ['(', ')'])
    (h : c.rest = x :: s) :
    scan c = ⟨c.offset, x, if x = '(' then .opening else .closing⟩ :: scan (c.drop 1) := by
  rw [scan]
  split
  · next h' => simp [h] at h'
  · next h' =>
    obtain ⟨rfl, rfl⟩ := List.cons.inj (h.symm.trans h')
    obtain rfl | rfl : x = '(' ∨ x = ')' := by simpa using hx
    · rfl
    · rfl

theorem scan_opening {c : Cursor} {s : List Char} (h : c.rest = '(' :: s) :
    scan c = ⟨c.offset, '(', .opening⟩ :: scan (c.drop 1) :=
  scan_parenthesis List.mem_cons_self h

theorem scan_closing {c : Cursor} {s : List Char} (h : c.rest = ')' :: s) :
    scan c = ⟨c.offset, ')', .closing⟩ :: scan (c.drop 1) :=
  scan_parenthesis (List.mem_cons_of_mem _ List.mem_cons_self) h

/-- A character that is no blank and no parenthesis, where a comparison may begin. -/
theorem scan_other {c : Cursor} {x : Char} {s : List Char} (h : c.rest = x :: s)
    (hx : isBlank x = false) (hparen : x ∉ ['(', ')']) :
    scan c =
      match readComparison c with
      | .comparison k next => ⟨c.offset, x, .comparison k⟩ :: scan next
      | .fault error => [⟨c.offset, x, .fault error⟩]
      | .nothing =>
        ⟨c.offset, x, if x = '&' then .connector .and else if x = '|' then .connector .or
          else .stray⟩ :: scan (c.drop 1) := by
  simp only [List.mem_cons, List.not_mem_nil, or_false, not_or] at hparen
  rw [scan]
  split
  · next h' => simp [h] at h'
  · next h' =>
    obtain ⟨rfl, rfl⟩ := List.cons.inj (h.symm.trans h')
    rw [if_neg (by simp [hx]), if_neg hparen.1, if_neg hparen.2]
    split <;> simp [*]

theorem isFieldChar_classes {x : Char} (hx : isFieldChar x = true) :
    isBlank x = false ∧ x ∉ ['(', ')'] := by
  refine ⟨Bool.of_not_eq_true fun hblank => ?_, fun hmem => ?_⟩
  · rw [(isBlank_classes hblank).1] at hx
    cases hx
  · have hmark : x ∈ ['(', ')', '\'', '&', '|'] := List.mem_append_left ['\'', '&', '|'] hmem
    rw [(mark_classes hmark).1] at hx
    cases hx

theorem StartsComparison.exists_cons {text : List Char} (h : StartsComparison text) :
    ∃ x s, text = x :: s ∧ isFieldChar x = true := by
  obtain ⟨field, gap, operator, after, rfl, hsome, hfield, -⟩ := h
  obtain ⟨x, field, rfl⟩ := List.exists_cons_of_ne_nil hsome
  exact ⟨x, _, rfl, ((run_cons _ _ _).1 hfield).1⟩

theorem scan_comparison {c : Cursor} {run after : List Char} {k : Comparison}
    (h : IsComparison run after k) (hc : c.rest = run ++ after) :
    ∃ x, scan c = ⟨c.offset, x, .comparison k⟩ :: scan (c.drop run.length) := by
  obtain ⟨x, s, htext, hx⟩ := h.startsComparison.exists_cons
  obtain ⟨hblank, hparen⟩ := isFieldChar_classes hx
  refine ⟨x, ?_⟩
  rw [scan_other (hc.trans htext) hblank hparen, readComparison_append h hc]
  simp only [scan_skipBlanks]

theorem scan_connector {c : Cursor} (k : Connector) {s : List Char}
    (h : c.rest = k.glyph :: s) :
    scan c = ⟨c.offset, k.glyph, .connector k⟩ :: scan (c.drop 1) := by
  have hnothing : readComparison c = .nothing := by
    apply readComparison_eq_nothing
    intro hstart
    obtain ⟨x, t, htext, hx⟩ := hstart.exists_cons
    obtain ⟨rfl, rfl⟩ := List.cons.inj (h.symm.trans htext)
    cases k <;> revert hx <;> decide
  rw [scan_other h (by cases k <;> decide) (by cases k <;> decide), hnothing]
  cases k <;> rfl

theorem scan_stray {c : Cursor} {x : Char} {s : List Char} (h : StartsStray c.rest)
    (hc : c.rest = x :: s) : scan c = ⟨c.offset, x, .stray⟩ :: scan (c.drop 1) := by
  obtain ⟨hstart, y, t, hc', hblank, hother⟩ := h
  obtain ⟨rfl, rfl⟩ := List.cons.inj (hc.symm.trans hc')
  simp only [List.mem_cons, List.not_mem_nil, or_false, not_or] at hother
  obtain ⟨hopen, hclose, hand, hor⟩ := hother
  rw [scan_other hc hblank (by simp [hopen, hclose]), readComparison_eq_nothing hstart]
  simp [hand, hor]

/-- What the text before the cursor begins with decides its first lexeme. -/
inductive Front (c : Cursor) : List Lexeme → Prop
  | done (h : c.rest = []) : Front c []
  | blank {x : Char} {s : List Char} (h : c.rest = x :: s) (hx : isBlank x = true) :
      Front c (scan (c.drop 1))
  | opening {s : List Char} (h : c.rest = '(' :: s) :
      Front c (⟨c.offset, '(', .opening⟩ :: scan (c.drop 1))
  | closing {s : List Char} (h : c.rest = ')' :: s) :
      Front c (⟨c.offset, ')', .closing⟩ :: scan (c.drop 1))
  | connector (k : Connector) {s : List Char} (h : c.rest = k.glyph :: s) :
      Front c (⟨c.offset, k.glyph, .connector k⟩ :: scan (c.drop 1))
  | comparison {x : Char} {run after : List Char} {k : Comparison} (h : c.rest = run ++ after)
      (hk : IsComparison run after k) :
      Front c (⟨c.offset, x, .comparison k⟩ :: scan (c.drop run.length))
  | stray {x : Char} (h : StartsStray c.rest) :
      Front c (⟨c.offset, x, .stray⟩ :: scan (c.drop 1))
  | fault {x : Char} {error : ParseError} (h : readComparison c = .fault error) :
      Front c [⟨c.offset, x, .fault error⟩]

theorem front_scan (c : Cursor) : Front c (scan c) := by
  cases hc : c.rest with
  | nil => exact scan_nil hc ▸ .done hc
  | cons x s =>
    by_cases hblank : isBlank x = true
    · exact scan_blank hc hblank ▸ .blank hc hblank
    by_cases hparen : x ∈ ['(', ')']
    · obtain rfl | rfl : x = '(' ∨ x = ')' := by simpa using hparen
      · exact scan_opening hc ▸ .opening hc
      · exact scan_closing hc ▸ .closing hc
    cases hread : readComparison c with
    | comparison k next =>
      obtain ⟨run, after, hrest, hk, rfl⟩ := isComparison_of_readComparison hread
      obtain ⟨y, hscan⟩ := scan_comparison hk hrest
      exact hscan ▸ .comparison hrest hk
    | fault error =>
      rw [scan_other hc (by simpa using hblank) hparen, hread]
      exact .fault hread
    | nothing =>
      by_cases hglyph : ∃ k : Connector, x = k.glyph
      · obtain ⟨k, rfl⟩ := hglyph
        exact scan_connector k hc ▸ .connector k hc
      · have hand : x ≠ '&' := fun h => hglyph ⟨.and, h⟩
        have hor : x ≠ '|' := fun h => hglyph ⟨.or, h⟩
        have hother : x ∉ ['(', ')', '&', '|'] := by simpa [hand, hor] using hparen
        have hstray : StartsStray c.rest :=
          ⟨fun hstart => readComparison_ne_nothing hstart hread, x, s, hc,
            by simpa using hblank, hother⟩
        exact scan_stray hstray hc ▸ .stray hstray

/-- The lexemes of a text begin with its first character that is not blank. -/
theorem exists_of_scan_eq_cons {c : Cursor} {l : Lexeme} {ls : List Lexeme}
    (h : scan c = l :: ls) : ∃ gap rest, c.rest = gap ++ l.head :: rest ∧ Run isBlank gap ∧
      isBlank l.head = false ∧ l.offset = c.offset + byteLength gap := by
  obtain ⟨gap, after, hc, hgap, hend⟩ := exists_run_append isBlank c.rest
  rw [← scan_skipBlanks, skipBlanks_eq_drop hc hgap hend] at h
  have hrest := rest_drop_length hc
  cases after with
  | nil => simp [scan_nil hrest] at h
  | cons x s =>
    have hx : isBlank x = false := hend
    have hl : l.head = x ∧ l.offset = (c.drop gap.length).offset := by
      by_cases hparen : x ∈ ['(', ')']
      · rw [scan_parenthesis hparen hrest] at h
        obtain ⟨rfl, -⟩ := List.cons.inj h
        exact ⟨rfl, rfl⟩
      · rw [scan_other hrest hx hparen] at h
        split at h
        all_goals
          obtain ⟨rfl, -⟩ := List.cons.inj h
          exact ⟨rfl, rfl⟩
    obtain ⟨rfl, hoffset⟩ := hl
    exact ⟨gap, s, hc, hgap, hx, hoffset.trans (offset_drop_length hc)⟩

/-- Behind its first lexeme a text is scanned from a later place on. -/
theorem exists_later_of_scan_eq_cons {c : Cursor} {l l' : Lexeme} {ls : List Lexeme}
    (h : scan c = l' :: ls) (hl : l ∈ ls) :
    ∃ part rest, c.rest = part ++ rest ∧ part ≠ [] ∧ l ∈ scan (c.drop part.length) := by
  have hfront := front_scan c
  rw [h] at hfront
  generalize hls : l' :: ls = lexemes at hfront
  cases hfront with
  | done => cases hls
  | @blank x s hc => exact ⟨[x], s, hc, by simp, hls ▸ List.mem_cons_of_mem l' hl⟩
  | @opening s hc => exact ⟨['('], s, hc, by simp, (List.cons.inj hls).2 ▸ hl⟩
  | @closing s hc => exact ⟨[')'], s, hc, by simp, (List.cons.inj hls).2 ▸ hl⟩
  | @connector k s hc => exact ⟨[k.glyph], s, hc, by simp, (List.cons.inj hls).2 ▸ hl⟩
  | @comparison x run after k hc hk =>
    exact ⟨run, after, hc, List.length_pos_iff.1 hk.length_pos, (List.cons.inj hls).2 ▸ hl⟩
  | stray hstray =>
    obtain ⟨-, y, s, hc, -⟩ := hstray
    exact ⟨[y], s, hc, by simp, (List.cons.inj hls).2 ▸ hl⟩
  | fault =>
    rw [(List.cons.inj hls).2] at hl
    cases hl

/-- Every lexeme stands in the text where it says, and is the first one there. -/
theorem exists_place_of_mem_scan (c : Cursor) {l : Lexeme} (h : l ∈ scan c) :
    ∃ before after ls, c.rest = before ++ after ∧ l.offset = c.offset + byteLength before ∧
      Stops isBlank after ∧ scan (c.drop before.length) = l :: ls := by
  induction hn : c.rest.length using Nat.strongRecOn generalizing c with
  | ind n ih =>
    subst hn
    obtain ⟨l', ls, hscan⟩ := List.exists_cons_of_ne_nil (List.ne_nil_of_mem h)
    rw [hscan] at h
    rcases List.mem_cons.1 h with rfl | h
    · obtain ⟨gap, rest, hc, hgap, hhead, hoffset⟩ := exists_of_scan_eq_cons hscan
      refine ⟨gap, l.head :: rest, ls, hc, hoffset, hhead, ?_⟩
      rw [← skipBlanks_eq_drop hc hgap hhead, scan_skipBlanks, hscan]
    · obtain ⟨part, rest, hc, hsome, hmem⟩ := exists_later_of_scan_eq_cons hscan h
      obtain ⟨before, after, ls', hrest, hoffset, hstops, hscan'⟩ :=
        ih _ (length_rest_drop_lt hc hsome) _ hmem rfl
      refine ⟨part ++ before, after, ls', ?_, ?_, hstops, ?_⟩
      · rw [hc, ← rest_drop_length hc, hrest, List.append_assoc]
      · rw [hoffset, offset_drop_length hc, byteLength_append, Nat.add_assoc]
      · rw [List.length_append, ← drop_drop, hscan']

end Sift.Grammar

import Mathlib.Control.Monad.Basic
import Sift.Proofs.Acceptance

/-!
# Strict and lenient reading

A strict reading takes the steps of a lenient one until it refuses a stray character, so
strictness adds errors of that one kind and nothing else. A lenient reading that succeeds
passes over its stray characters as if blanks stood in their places: with the blanks the
text needs no normalization, and a strict reading gives the same tree. No name, number, word
or operator is longer or shorter for it, since a blank ends all that any other character ends.

`skipped` are the offsets of the stray characters that a run passes over, and `blankSkipped`
is the text with blanks there. `Marks` says of offsets that they are those of the stray
characters from a cursor on.
-/

namespace Sift.Expr

open Moment

theorem Moment.step_strict_or_stray (maxDepth : Nat) (m : Moment) :
    step ⟨true, maxDepth⟩ m = step ⟨false, maxDepth⟩ m ∨
      ∃ error, step ⟨true, maxDepth⟩ m = .failed error ∧
        ∃ x position, error = .unexpectedCharacter x position := by
  by_cases hdeep : maxDepth < m.level
  · exact .inl (by simp only [step, hdeep, if_true])
  · obtain ⟨outer, inner, ahead⟩ := m
    have hlevel : outer.length + 1 ≤ maxDepth := Nat.not_lt.1 hdeep
    cases ahead with
    | nil => exact .inl ((step_nil hlevel).trans (step_nil hlevel).symm)
    | cons l ls =>
      rw [step_cons hlevel, step_cons hlevel]
      cases htoken : l.token with
      | stray =>
        exact .inr ⟨.unexpectedCharacter l.head l.offset, by simp [consume, htoken], _, _, rfl⟩
      | opening => exact .inl (by simp only [consume, htoken])
      | closing => exact .inl (by simp only [consume, htoken])
      | connector c => exact .inl (by simp only [consume, htoken])
      | comparison c => exact .inl (by simp only [consume, htoken])
      | fault error => exact .inl (by simp only [consume, htoken])

/-- A strict result that is no unexpected character is the lenient result as well, be it a
tree or an error. -/
theorem parse_lenient_eq_strict {maxDepth : Nat} {s : String}
    (h : ∀ x position, Expr.parse ⟨true, maxDepth⟩ s ≠ .error (.unexpectedCharacter x position)) :
    Expr.parse ⟨false, maxDepth⟩ s = Expr.parse ⟨true, maxDepth⟩ s := by
  rcases parse_eq_or_refused (step_strict_or_stray maxDepth) s with heq | ⟨_, hrefused, x, p, rfl⟩
  · exact heq.symm
  · exact absurd hrefused (h x p)

/-- Two connectors in one group behind a character of two bytes. -/
theorem parse_lenient_eq_strict_mixedLogic :
    Expr.parse ⟨true, 64⟩ "a='é'&b=1|c=2" = .error (.mixedLogic 11) ∧
      Expr.parse ⟨false, 64⟩ "a='é'&b=1|c=2" = .error (.mixedLogic 11) := by
  have h : Expr.parse ⟨true, 64⟩ "a='é'&b=1|c=2" = .error (.mixedLogic 11) := by
    decide +kernel
  exact ⟨h, (parse_lenient_eq_strict (by simp [h])).trans h⟩

def strayOffsets (ls : List Lexeme) : List Nat :=
  (ls.filter (·.token = .stray)).map (·.offset)

theorem strayOffsets_append (ls ls' : List Lexeme) :
    strayOffsets (ls ++ ls') = strayOffsets ls ++ strayOffsets ls' := by
  simp [strayOffsets]

def Moment.skipped (o : ParseOptions) (m : Moment) : List Nat :=
  match _ : step o m with
  | .next n => strayOffsets (m.ahead.take 1) ++ skipped o n
  | .failed _ => []
  | .closed _ => []
termination_by m.ahead.length
decreasing_by
  obtain ⟨-, -, l, hl⟩ := of_step_eq_next ‹_›
  simp [hl]

theorem Moment.skipped_of_next {o : ParseOptions} {m n : Moment} (h : step o m = .next n) :
    skipped o m = strayOffsets (m.ahead.take 1) ++ skipped o n := by
  rw [skipped]
  split <;> simp_all

theorem Moment.skipped_of_closed {o : ParseOptions} {m : Moment} {r : Reading}
    (h : step o m = .closed r) : skipped o m = [] := by
  rw [skipped]
  split <;> simp_all

/-- A run to the end of the outer group has skipped the stray characters before that end. -/
theorem strayOffsets_ahead {o : ParseOptions} {m : Moment} {r : Reading}
    (h : run o m = .ok r) : strayOffsets m.ahead = skipped o m ++ strayOffsets r.behind := by
  fun_induction run o m with
  | case1 m n hstep ih =>
    obtain ⟨-, -, l, hl⟩ := of_step_eq_next hstep
    have hsplit : strayOffsets m.ahead = strayOffsets (m.ahead.take 1) ++ strayOffsets n.ahead := by
      rw [← strayOffsets_append, hl]
      rfl
    rw [hsplit, ih h, skipped_of_next hstep, List.append_assoc]
  | case2 => cases h
  | case3 m r' hstep =>
    obtain rfl := Except.ok.inj h
    obtain ⟨hahead, htoken⟩ := of_step_eq_closed hstep
    rw [skipped_of_closed hstep, hahead]
    simp [strayOffsets, htoken]

end Sift.Expr

namespace Sift.Grammar

open Sift.Text Sift.Expr Moment Lexeme

/-- The text with the characters at the given offsets blanked out, a blank for each byte. -/
def blankAt (offsets : List Nat) : Nat → List Char → List Char
  | _, [] => []
  | n, c :: s =>
    (if n ∈ offsets then List.replicate c.utf8Size ' ' else [c]) ++
      blankAt offsets (n + c.utf8Size) s

variable {offsets : List Nat}

theorem blankAt_append (n : Nat) (s t : List Char) :
    blankAt offsets n (s ++ t) = blankAt offsets n s ++ blankAt offsets (n + byteLength s) t := by
  induction s generalizing n with
  | nil => rfl
  | cons c s ih => simp [blankAt, ih, Nat.add_assoc]

theorem blankAt_eq_self {n : Nat} {s : List Char}
    (h : ∀ k, n ≤ k → k < n + byteLength s → k ∉ offsets) : blankAt offsets n s = s := by
  induction s generalizing n with
  | nil => rfl
  | cons c s ih =>
    have hsize := c.utf8Size_pos
    rw [byteLength_cons] at h
    rw [blankAt, if_neg (h n (Nat.le_refl n) (by omega)), ih]
    · rfl
    · exact fun k hk hk' => h k (by omega) (by omega)

theorem endsLike_blankAt (n : Nat) (u : List Char) {s t : List Char} (h : EndsLike s t) :
    EndsLike (u ++ s) (blankAt offsets n u ++ t) := by
  induction u generalizing n with
  | nil => exact h
  | cons c u ih =>
    rw [blankAt]
    split
    · obtain ⟨k, hk⟩ := Nat.exists_eq_succ_of_ne_zero (Nat.ne_of_gt c.utf8Size_pos)
      rw [hk, List.replicate_succ]
      exact .blank _ _
    · exact (ih _).cons c

theorem items_blanks (n : Nat) {strict : Bool} {text after : List Char} {es : List Expr}
    {ks : List Connector} (h : Items strict text after es ks) :
    Items strict (List.replicate n ' ' ++ text) after es ks := by
  induction n with
  | zero => exact h
  | succ n ih => exact .blank (by decide) ih

theorem blankAt_append_of_rest {c : Cursor} {text after : List Char}
    (h : c.rest = text ++ after) (s : List Char) :
    blankAt offsets c.offset (text ++ s) =
      blankAt offsets c.offset text ++ blankAt offsets (c.drop text.length).offset s := by
  rw [blankAt_append, offset_drop_length h]

theorem offset_le_drop (c : Cursor) (n : Nat) : c.offset ≤ (c.drop n).offset :=
  Nat.le_add_right _ _

theorem offset_le_of_mem_scan {c : Cursor} {l : Lexeme} (h : l ∈ scan c) :
    c.offset ≤ l.offset := by
  obtain ⟨before, -, -, -, hoffset, -⟩ := exists_place_of_mem_scan c h
  rw [hoffset]
  exact Nat.le_add_right _ _

def Marks (offsets : List Nat) (c : Cursor) : Prop :=
  ∀ n, c.offset ≤ n → (n ∈ offsets ↔ n ∈ strayOffsets (scan c))

theorem offset_le_of_mem_strayOffsets {c : Cursor} {n : Nat} (h : n ∈ strayOffsets (scan c)) :
    c.offset ≤ n := by
  simp only [strayOffsets, List.mem_map, List.mem_filter] at h
  obtain ⟨l, ⟨hl, -⟩, rfl⟩ := h
  exact offset_le_of_mem_scan hl

namespace Marks

/-- A part of the text that is no stray character stays as it is. -/
theorem keep {c : Cursor} {text after : List Char} (h : Marks offsets c)
    (hc : c.rest = text ++ after)
    (hscan : strayOffsets (scan c) = strayOffsets (scan (c.drop text.length))) :
    (∀ s, blankAt offsets c.offset (text ++ s) =
      text ++ blankAt offsets (c.drop text.length).offset s) ∧
      Marks offsets (c.drop text.length) := by
  constructor
  · intro s
    rw [blankAt_append_of_rest hc, blankAt_eq_self]
    intro n hn hlt hmem
    rw [h n hn, hscan] at hmem
    have hle := offset_le_of_mem_strayOffsets hmem
    rw [offset_drop_length hc] at hle
    omega
  · intro n hn
    rw [h n (Nat.le_trans (offset_le_drop c _) hn), hscan]

theorem keep_one {c : Cursor} {x : Char} {s : List Char} (h : Marks offsets c)
    (hc : c.rest = x :: s) (hscan : strayOffsets (scan c) = strayOffsets (scan (c.drop 1))) :
    (∀ t, blankAt offsets c.offset (x :: t) = x :: blankAt offsets (c.drop 1).offset t) ∧
      Marks offsets (c.drop 1) := by
  have hc' : c.rest = [x] ++ s := hc
  exact h.keep hc' hscan

theorem stray {c : Cursor} {x : Char} {s : List Char} (h : Marks offsets c)
    (hc : c.rest = x :: s) (hscan : scan c = ⟨c.offset, x, .stray⟩ :: scan (c.drop 1)) :
    c.offset ∈ offsets ∧ Marks offsets (c.drop 1) := by
  have hstrays : strayOffsets (scan c) = c.offset :: strayOffsets (scan (c.drop 1)) := by
    rw [hscan]
    rfl
  constructor
  · rw [h _ (Nat.le_refl _), hstrays]
    exact List.mem_cons_self
  · intro n hn
    have hsize := x.utf8Size_pos
    have hoffset := offset_drop_one hc
    rw [h n (by omega), hstrays, List.mem_cons, or_iff_right (by omega)]

end Marks

/-- With the stray characters blanked out the same items stand in the text. The induction
goes along the text, so that the marks behind an item are those of the text that is left. -/
theorem items_blankAt {strict : Bool} {text after after' : List Char} {es : List Expr}
    {ks : List Connector} (h : Items strict text after es ks) {c : Cursor}
    (hc : c.rest = text ++ after) (hmarks : Marks offsets c) (hafter : EndsLike after after') :
    Items true (blankAt offsets c.offset text) after' es ks ∧
      Marks offsets (c.drop text.length) := by
  induction h generalizing c after' with
  | nil => exact ⟨.nil, by simpa using hmarks⟩
  | @blank x text after es ks hx _ ih =>
    obtain ⟨hkeep, hnext⟩ := hmarks.keep_one hc (by rw [scan_blank hc hx])
    obtain ⟨hitems, hlast⟩ := ih (rest_drop_one hc) hnext hafter
    rw [hkeep, List.length_cons, Nat.add_comm, ← drop_drop]
    exact ⟨.blank hx hitems, hlast⟩
  | @connector k text after es ks _ ih =>
    obtain ⟨hkeep, hnext⟩ := hmarks.keep_one hc (by rw [scan_connector k hc]; rfl)
    obtain ⟨hitems, hlast⟩ := ih (rest_drop_one hc) hnext hafter
    rw [hkeep, List.length_cons, Nat.add_comm, ← drop_drop]
    exact ⟨.connector k hitems, hlast⟩
  | @group inner text after ds es js ks k _ hk _ ihinner ih =>
    have hopen : c.rest = '(' :: (inner ++ ')' :: (text ++ after)) := by simp [hc]
    obtain ⟨hkeep, hnext⟩ := hmarks.keep_one hopen (by rw [scan_opening hopen]; rfl)
    have hinside := rest_drop_one hopen
    obtain ⟨hinner, hend⟩ := ihinner hinside hnext ((endsLike_blankAt _ text hafter).cons ')')
    have hclose := rest_drop_length hinside
    obtain ⟨hkeep', hnext'⟩ := hend.keep_one hclose (by rw [scan_closing hclose]; rfl)
    obtain ⟨hitems, hlast⟩ := ih (rest_drop_one hclose) hnext' hafter
    rw [List.cons_append, hkeep, blankAt_append_of_rest hinside, hkeep']
    constructor
    · simpa using Items.group hinner hk hitems
    · simpa [Nat.add_comm, Nat.add_left_comm, Nat.add_assoc] using hlast
  | @comparison run text after k es ks hk _ ih =>
    have hc' : c.rest = run ++ (text ++ after) := by simp [hc]
    obtain ⟨x, hscan⟩ := scan_comparison hk hc'
    obtain ⟨hkeep, hnext⟩ := hmarks.keep hc' (by rw [hscan]; rfl)
    obtain ⟨hitems, hlast⟩ := ih (rest_drop_length hc') hnext hafter
    rw [hkeep, List.length_append, ← drop_drop]
    exact ⟨.comparison ((endsLike_blankAt _ text hafter).isComparison hk) hitems, hlast⟩
  | @stray x text after es ks hstrict hx _ ih =>
    have hstray : StartsStray c.rest := by rw [hc]; exact hx
    obtain ⟨hmem, hnext⟩ := hmarks.stray hc (scan_stray hstray hc)
    obtain ⟨hitems, hlast⟩ := ih (rest_drop_one hc) hnext hafter
    rw [blankAt, if_pos hmem, ← offset_drop_one hc, List.length_cons, Nat.add_comm, ← drop_drop]
    exact ⟨items_blanks _ hitems, hlast⟩

/-- The normalized expression with blanks in the places of the characters that a reading
skips. -/
def blankSkipped (o : ParseOptions) (s : String) : String :=
  String.ofList (blankAt (skipped o (start s)) 0 (normalizeChars s.toList))

theorem skipped_start {o : ParseOptions} {s : String} {e : Expr} (h : Expr.parse o s = .ok e) :
    skipped o (start s) = strayOffsets (lexemes s) := by
  rw [parse_eq_run, bind_finished_eq_ok_iff] at h
  obtain ⟨r, hr, hbehind, -⟩ := h
  have hstrays := strayOffsets_ahead hr
  rw [hbehind] at hstrays
  rw [lexemes_eq_cons s]
  exact (hstrays.trans (List.append_nil _)).symm

/-- What a lenient reading accepts is the same tree in strict mode once blanks stand in the
places of the characters that were skipped. -/
theorem parse_strict_blankSkipped {maxDepth : Nat} {s : String} {e : Expr}
    (h : Expr.parse ⟨false, maxDepth⟩ s = .ok e) :
    Expr.normalize (blankSkipped ⟨false, maxDepth⟩ s) = blankSkipped ⟨false, maxDepth⟩ s ∧
      Expr.parse ⟨true, maxDepth⟩ (blankSkipped ⟨false, maxDepth⟩ s) = .ok e := by
  obtain ⟨inner, es, ks, k, hinner, hitems, hk, he, hdepth⟩ := parse_eq_ok_iff_items.1 h
  have hmarks : Marks (skipped ⟨false, maxDepth⟩ (start s))
      (Cursor.start (normalizeChars s.toList)) := by
    intro n _
    rw [skipped_start h]
    rfl
  have hopen : (Cursor.start (normalizeChars s.toList)).rest = '(' :: (inner ++ [')']) := hinner
  rw [blankSkipped, hinner]
  generalize skipped ⟨false, maxDepth⟩ (start s) = offsets at hmarks
  generalize hc : Cursor.start (normalizeChars s.toList) = c at hmarks hopen
  have hoffset : c.offset = 0 := by rw [← hc]; rfl
  obtain ⟨hkeep, hnext⟩ := hmarks.keep_one hopen (by rw [scan_opening hopen]; rfl)
  have hinside := rest_drop_one hopen
  obtain ⟨hblanked, hend⟩ := items_blankAt hitems hinside hnext (.refl _)
  have hclose := rest_drop_length hinside
  obtain ⟨hkeep', -⟩ := hend.keep_one hclose (by rw [scan_closing hclose]; rfl)
  have htext : blankAt offsets 0 ('(' :: (inner ++ [')'])) =
      '(' :: (blankAt offsets (c.drop 1).offset inner ++ [')']) := by
    rw [← hoffset, hkeep, blankAt_append_of_rest hinside, hkeep']
    rfl
  have hfixed : normalizeChars (blankAt offsets 0 ('(' :: (inner ++ [')']))) =
      blankAt offsets 0 ('(' :: (inner ++ [')'])) := by
    rw [htext]
    exact (normalizeChars_parentheses_iff _).2 (.of_items hblanked)
  refine ⟨by rw [Expr.normalize, String.toList_ofList, hfixed], ?_⟩
  rw [parse_eq_ok_iff_items, String.toList_ofList, hfixed, htext]
  exact ⟨_, es, ks, k, rfl, hblanked, hk, he, hdepth⟩

/-- Stray quotes, a letter behind a string and a character of two bytes. -/
theorem parse_strict_blankSkipped_strayQuotes :
    Expr.parse ⟨false, 2⟩ "a='x'y é' & (b=2'|c=3)" =
        .ok (.group .and [.comparison ⟨"a", "=", .string "x"⟩,
          .group .or [.comparison ⟨"b", "=", .int 2⟩, .comparison ⟨"c", "=", .int 3⟩]]) ∧
      blankSkipped ⟨false, 2⟩ "a='x'y é' & (b=2'|c=3)" = "(a='x'      & (b=2 |c=3))" ∧
      Expr.normalize "(a='x'      & (b=2 |c=3))" = "(a='x'      & (b=2 |c=3))" ∧
      Expr.parse ⟨true, 2⟩ "(a='x'      & (b=2 |c=3))" =
        .ok (.group .and [.comparison ⟨"a", "=", .string "x"⟩,
          .group .or [.comparison ⟨"b", "=", .int 2⟩, .comparison ⟨"c", "=", .int 3⟩]]) := by
  have h : Expr.parse ⟨false, 2⟩ "a='x'y é' & (b=2'|c=3)" =
      .ok (.group .and [.comparison ⟨"a", "=", .string "x"⟩,
        .group .or [.comparison ⟨"b", "=", .int 2⟩, .comparison ⟨"c", "=", .int 3⟩]]) := by
    decide +kernel
  have hblanked : blankSkipped ⟨false, 2⟩ "a='x'y é' & (b=2'|c=3)" =
      "(a='x'      & (b=2 |c=3))" := by
    decide +kernel
  obtain ⟨hfixed, hstrict⟩ := parse_strict_blankSkipped h
  rw [hblanked] at hfixed hstrict
  exact ⟨h, hblanked, hfixed, hstrict⟩

end Sift.Grammar

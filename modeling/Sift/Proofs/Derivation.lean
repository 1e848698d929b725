import Sift.Proofs.Descent

/-!
# Parsing and derivations

The parser reads the lexemes with a stack of open groups. While it reads a sequence of
items, only the innermost group changes, and it changes by the expressions and the
connectors of the sequence. Conversely a run that ends well has read, in every group, a
sequence of items up to the parenthesis that closes it.

`extend` is a group after more has been read in it, `Ran` all that a run can do at a cursor,
and `Closing` what it has read up to the parenthesis that closes the innermost group.
-/

namespace Sift.Grammar

open Sift.Text Sift.Expr Moment Lexeme

/-- Connectors may be written in a group in which `seen` was the last one. -/
def Agrees : Option Connector → List Connector → Prop
  | _, [] => True
  | seen, k :: ks => (seen = none ∨ seen = some k) ∧ Agrees (some k) ks

def extend (s : Scope) (es : List Expr) (ks : List Connector) : Scope :=
  ⟨s.offset, ks.foldl (fun _ k => some k) s.connector, es.reverse ++ s.members⟩

@[simp] theorem extend_nil (s : Scope) : extend s [] [] = s := rfl

theorem extend_add (s : Scope) (e : Expr) (es : List Expr) (ks : List Connector) :
    extend (s.add e) es ks = extend s (e :: es) ks := by
  simp [extend, Scope.add]

theorem extend_connector (s : Scope) (k : Connector) (es : List Expr) (ks : List Connector) :
    extend { s with connector := some k } es ks = extend s es (k :: ks) := rfl

theorem connect?_eq_some_iff {s t : Scope} {k : Connector} :
    s.connect? k = some t ↔
      (s.connector = none ∨ s.connector = some k) ∧ t = { s with connector := some k } := by
  unfold Scope.connect?
  split
  · next h => simp [h, eq_comm]
  · next h => simp [h]

theorem agrees_some_iff (k : Connector) (ks : List Connector) :
    Agrees (some k) ks ↔ ∀ j ∈ ks, j = k := by
  induction ks with
  | nil => simp [Agrees]
  | cons j ks ih =>
    by_cases h : j = k
    · subst h
      simp [Agrees, ih]
    · simp [Agrees, h, Ne.symm h]

theorem agrees_none_iff (ks : List Connector) : Agrees none ks ↔ ∃ k, Governs ks k := by
  cases ks with
  | nil => simp only [Agrees, true_iff]; exact ⟨.and, .default⟩
  | cons k ks =>
    simp only [Agrees, true_or, true_and, agrees_some_iff]
    constructor
    · intro h
      exact ⟨k, .written (by simp) (by simpa using h)⟩
    · rintro ⟨j, hj⟩
      cases hj with
      | written _ hsame =>
        obtain ⟨rfl, h⟩ := by simpa using hsame
        exact h

theorem Governs.agrees {ks : List Connector} {k : Connector} (h : Governs ks k) :
    Agrees none ks := (agrees_none_iff ks).2 ⟨k, h⟩

theorem foldl_last (k : Connector) (ks : List Connector) (h : ∀ j ∈ ks, j = k) :
    ks.foldl (fun _ j => some j) (some k) = some k := by
  induction ks with
  | nil => rfl
  | cons j ks ih =>
    obtain ⟨rfl, hks⟩ := by simpa using h
    exact ih hks

theorem close_extend {ks : List Connector} {k : Connector} (h : Governs ks k) (offset : Nat)
    (es : List Expr) : (extend (.opened offset) es ks).close = .group k es := by
  cases h with
  | default => simp [extend, Scope.close, Scope.opened]
  | written hsome hsame =>
    obtain ⟨j, ks, rfl⟩ := List.exists_cons_of_ne_nil hsome
    obtain ⟨rfl, hks⟩ := by simpa using hsame
    simp [extend, Scope.close, Scope.opened, foldl_last _ _ hks]

variable {o : ParseOptions} {outer : List Scope} {inner : Scope} {c : Cursor}

theorem run_opening {s : List Char} (hdepth : outer.length + 1 ≤ o.maxDepth)
    (hc : c.rest = '(' :: s) :
    run o ⟨outer, inner, scan c⟩ =
      run o ⟨inner :: outer, .opened c.offset, scan (c.drop 1)⟩ := by
  rw [scan_opening hc]
  exact run_of_next (step_cons hdepth)

theorem run_closing {scope : Scope} {s : List Char}
    (hdepth : (scope :: outer).length + 1 ≤ o.maxDepth) (hc : c.rest = ')' :: s) :
    run o ⟨scope :: outer, inner, scan c⟩ =
      run o ⟨outer, scope.add inner.close, scan (c.drop 1)⟩ := by
  rw [scan_closing hc]
  exact run_of_next (step_cons hdepth)

theorem run_closing_outer {s : List Char} (hdepth : 1 ≤ o.maxDepth) (hc : c.rest = ')' :: s) :
    run o ⟨[], inner, scan c⟩ =
      .ok ⟨inner.close, ⟨c.offset, ')', .closing⟩, scan (c.drop 1)⟩ := by
  have hlevel : ([] : List Scope).length + 1 ≤ o.maxDepth := hdepth
  rw [scan_closing hc]
  exact run_of_closed (step_cons hlevel)

theorem run_connector {k : Connector} {s : List Char}
    (hdepth : outer.length + 1 ≤ o.maxDepth) (hc : c.rest = k.glyph :: s)
    (hk : inner.connector = none ∨ inner.connector = some k) :
    run o ⟨outer, inner, scan c⟩ =
      run o ⟨outer, { inner with connector := some k }, scan (c.drop 1)⟩ := by
  rw [scan_connector k hc]
  apply run_of_next
  rw [step_cons hdepth]
  simp only [consume, connect?_eq_some_iff.2 ⟨hk, rfl⟩]

theorem run_comparison {run' after : List Char} {k : Comparison}
    (hdepth : outer.length + 1 ≤ o.maxDepth) (hk : IsComparison run' after k)
    (hc : c.rest = run' ++ after) :
    run o ⟨outer, inner, scan c⟩ =
      run o ⟨outer, inner.add (.comparison k), scan (c.drop run'.length)⟩ := by
  obtain ⟨x, hscan⟩ := scan_comparison hk hc
  rw [hscan]
  exact run_of_next (step_cons hdepth)

theorem run_stray (hdepth : outer.length + 1 ≤ o.maxDepth) (hstrict : o.strict = false)
    (hc : StartsStray c.rest) :
    run o ⟨outer, inner, scan c⟩ = run o ⟨outer, inner, scan (c.drop 1)⟩ := by
  obtain ⟨-, x, s, hrest, -⟩ := id hc
  rw [scan_stray hc hrest]
  apply run_of_next
  rw [step_cons hdepth]
  simp [consume, hstrict]

/-- All that a run can do with the text in front of the cursor: it reads a part of it and goes
on behind that, or it ends. -/
inductive Ran (o : ParseOptions) (outer : List Scope) (inner : Scope) (c : Cursor) :
    Except ParseError Reading → Prop
  | tooDeep (h : o.maxDepth < outer.length + 1) :
      Ran o outer inner c (.error (.nestingTooDeep o.maxDepth))
  | unclosed (hc : c.rest = []) : Ran o outer inner c (.error (.unclosedGroup inner.offset))
  | blank {x : Char} {s : List Char} {result : Except ParseError Reading}
      (hc : c.rest = x :: s) (hx : isBlank x = true)
      (hrun : run o ⟨outer, inner, scan (c.drop 1)⟩ = result) : Ran o outer inner c result
  | enter {s : List Char} {result : Except ParseError Reading} (hc : c.rest = '(' :: s)
      (hrun : run o ⟨inner :: outer, .opened c.offset, scan (c.drop 1)⟩ = result) :
      Ran o outer inner c result
  | leave {scope : Scope} {scopes : List Scope} {s : List Char}
      {result : Except ParseError Reading} (houter : outer = scope :: scopes)
      (hc : c.rest = ')' :: s)
      (hrun : run o ⟨scopes, scope.add inner.close, scan (c.drop 1)⟩ = result) :
      Ran o outer inner c result
  | close {s : List Char} (houter : outer = []) (hc : c.rest = ')' :: s) :
      Ran o outer inner c (.ok ⟨inner.close, ⟨c.offset, ')', .closing⟩, scan (c.drop 1)⟩)
  | connect {k : Connector} {s : List Char} {result : Except ParseError Reading}
      (hc : c.rest = k.glyph :: s) (hk : inner.connector = none ∨ inner.connector = some k)
      (hrun : run o ⟨outer, { inner with connector := some k }, scan (c.drop 1)⟩ = result) :
      Ran o outer inner c result
  | mixed {k : Connector} {s : List Char} (hc : c.rest = k.glyph :: s)
      (hk : ¬(inner.connector = none ∨ inner.connector = some k)) :
      Ran o outer inner c (.error (.mixedLogic c.offset))
  | compare {text after : List Char} {k : Comparison} {result : Except ParseError Reading}
      (hc : c.rest = text ++ after) (hk : IsComparison text after k)
      (hrun : run o ⟨outer, inner.add (.comparison k), scan (c.drop text.length)⟩ = result) :
      Ran o outer inner c result
  | skip {x : Char} {s : List Char} {result : Except ParseError Reading}
      (hc : c.rest = x :: s) (hstray : StartsStray (x :: s)) (hstrict : o.strict = false)
      (hrun : run o ⟨outer, inner, scan (c.drop 1)⟩ = result) : Ran o outer inner c result
  | refuse {x : Char} {s : List Char} (hc : c.rest = x :: s) (hstray : StartsStray (x :: s))
      (hstrict : o.strict = true) :
      Ran o outer inner c (.error (.unexpectedCharacter x c.offset))
  | fault {error : ParseError} (h : readComparison c = .fault error) :
      Ran o outer inner c (.error error)

/-- The connector of a group is written again, or the other one is refused. -/
theorem ran_connector {k : Connector} {s : List Char} (hlevel : outer.length + 1 ≤ o.maxDepth)
    (hc : c.rest = k.glyph :: s) : Ran o outer inner c (run o ⟨outer, inner, scan c⟩) := by
  by_cases hk : inner.connector = none ∨ inner.connector = some k
  · exact .connect hc hk (run_connector hlevel hc hk).symm
  · have hfailed : step o ⟨outer, inner, scan c⟩ = .failed (.mixedLogic c.offset) := by
      rw [scan_connector k hc, step_cons hlevel]
      simp [consume, Scope.connect?, hk]
    rw [run_of_failed hfailed]
    exact .mixed hc hk

/-- A character without a meaning is skipped, unless the reading is strict. -/
theorem ran_stray (hlevel : outer.length + 1 ≤ o.maxDepth) (hstray : StartsStray c.rest) :
    Ran o outer inner c (run o ⟨outer, inner, scan c⟩) := by
  obtain ⟨-, x, s, hc, -⟩ := id hstray
  cases hstrict : o.strict with
  | false => exact .skip hc (hc ▸ hstray) hstrict (run_stray hlevel hstrict hstray).symm
  | true =>
    have hfailed : step o ⟨outer, inner, scan c⟩ = .failed (.unexpectedCharacter x c.offset) := by
      rw [scan_stray hstray hc, step_cons hlevel]
      simp [consume, hstrict]
    rw [run_of_failed hfailed]
    exact .refuse hc (hc ▸ hstray) hstrict

theorem ran_run (o : ParseOptions) (outer : List Scope) (inner : Scope) (c : Cursor) :
    Ran o outer inner c (run o ⟨outer, inner, scan c⟩) := by
  by_cases hdeep : o.maxDepth < outer.length + 1
  · rw [run_of_failed (step_of_lt hdeep)]
    exact .tooDeep hdeep
  have hlevel : outer.length + 1 ≤ o.maxDepth := Nat.not_lt.1 hdeep
  have hfront := front_scan c
  generalize hls : scan c = ls at hfront
  cases hfront with
  | done hc =>
    rw [run_of_failed (step_nil hlevel)]
    exact .unclosed hc
  | blank hc hx => exact .blank hc hx rfl
  | opening hc => exact .enter hc (hls ▸ run_opening hlevel hc).symm
  | closing hc =>
    rw [← hls]
    cases outer with
    | nil =>
      rw [run_closing_outer hlevel hc]
      exact .close rfl hc
    | cons scope scopes => exact .leave rfl hc (run_closing hlevel hc).symm
  | connector k hc => exact hls ▸ ran_connector hlevel hc
  | comparison hc hk => exact .compare hc hk (hls ▸ run_comparison hlevel hk hc).symm
  | stray hstray =>
    rw [← hls]
    exact ran_stray hlevel hstray
  | fault hread =>
    rw [run_of_failed (step_cons hlevel)]
    exact .fault hread

/-- Reading a sequence of items adds it to the innermost group and changes nothing else. -/
theorem run_items {text after : List Char} {es : List Expr}
    {ks : List Connector} (h : Items o.strict text after es ks) (outer : List Scope)
    (inner : Scope) (c : Cursor) (hc : c.rest = text ++ after)
    (hks : Agrees inner.connector ks) (hdepth : outer.length + 1 + depthAll es ≤ o.maxDepth) :
    run o ⟨outer, inner, scan c⟩ =
      run o ⟨outer, extend inner es ks, scan (c.drop text.length)⟩ := by
  have hlevel : outer.length + 1 ≤ o.maxDepth := by omega
  induction h generalizing outer inner c with
  | nil => simp
  | @blank x text after es ks hx _ ih =>
    rw [scan_blank hc hx, ih outer inner (c.drop 1) (by simp [hc]) hks hdepth hlevel, drop_drop,
      List.length_cons, Nat.add_comm]
  | @connector k text after es ks _ ih =>
    have hrest : (c.drop 1).rest = text ++ after := by simp [hc]
    rw [run_connector hlevel hc hks.1,
      ih outer { inner with connector := some k } (c.drop 1) hrest hks.2 hdepth hlevel,
      extend_connector, drop_drop, List.length_cons, Nat.add_comm]
  | @group innerText text after ds es js ks k _ hk _ ihinner ih =>
    simp only [depthAll, depth] at hdepth
    have hrest : (c.drop 1).rest = innerText ++ ')' :: (text ++ after) := by simp [hc]
    have hrest' := rest_drop_length hrest
    have hrest'' : (((c.drop 1).drop innerText.length).drop 1).rest = text ++ after := by
      rw [Cursor.rest_drop, hrest', List.drop_one, List.tail_cons]
    have hinside : (inner :: outer).length + 1 ≤ o.maxDepth := by
      rw [List.length_cons]
      omega
    rw [run_opening hlevel hc,
      ihinner (inner :: outer) (.opened c.offset) (c.drop 1) hrest hk.agrees
        (by rw [List.length_cons]; omega) hinside,
      run_closing hinside hrest', close_extend hk,
      ih outer (inner.add (.group k ds)) _ hrest'' hks (by omega) hlevel, extend_add]
    simp only [drop_drop, List.length_append, List.length_cons, Nat.add_assoc, Nat.add_comm 1]
  | @comparison run' text after k es ks hk _ ih =>
    have hc' : c.rest = run' ++ (text ++ after) := by simp [hc]
    rw [run_comparison hlevel hk hc', ih outer (inner.add (.comparison k)) _
      (rest_drop_length hc') hks (by simp only [depthAll, depth] at hdepth; omega) hlevel,
      extend_add, drop_drop, List.length_append]
  | @stray x text after es ks hstrict hx _ ih =>
    have hstray : StartsStray c.rest := by rw [hc]; exact hx
    rw [run_stray hlevel hstrict hstray, ih outer inner (c.drop 1) (by simp [hc]) hks hdepth hlevel,
      drop_drop, List.length_cons, Nat.add_comm]

structure Closing (o : ParseOptions) (outer : List Scope) (inner : Scope) (c : Cursor)
    (r : Reading) (text rest : List Char) (es : List Expr) (ks : List Connector) : Prop where
  split : c.rest = text ++ ')' :: rest
  items : Items o.strict text (')' :: rest) es ks
  agrees : Agrees inner.connector ks
  depth : outer.length + 1 + depthAll es ≤ o.maxDepth
  next : run o ⟨outer, extend inner es ks, scan (c.drop text.length)⟩ = .ok r

theorem rest_split {c : Cursor} (run : List Char) {s text rest : List Char} (hc : c.rest = run ++ s)
    (h : (c.drop run.length).rest = text ++ ')' :: rest) : s = text ++ ')' :: rest := by
  rw [← h, rest_drop_length hc]

namespace Closing

variable {r : Reading} {s text rest : List Char} {es : List Expr} {ks : List Connector}

/-- The parenthesis comes at once. -/
theorem nil (hc : c.rest = ')' :: s) (h : run o ⟨outer, inner, scan c⟩ = .ok r) :
    Closing o outer inner c r [] s [] [] := by
  have hlevel : outer.length + 1 ≤ o.maxDepth := level_le_of_run_eq_ok h
  exact ⟨hc, .nil, trivial, by simpa [depthAll] using hlevel, by simpa using h⟩

theorem blank {x : Char} (hc : c.rest = x :: s) (hx : isBlank x = true)
    (h : Closing o outer inner (c.drop 1) r text rest es ks) :
    Closing o outer inner c r (x :: text) rest es ks := by
  obtain rfl := rest_split [x] hc h.split
  refine ⟨hc, .blank hx h.items, h.agrees, h.depth, ?_⟩
  simpa [Nat.add_comm] using h.next

theorem connector {k : Connector} (hc : c.rest = k.glyph :: s)
    (hk : inner.connector = none ∨ inner.connector = some k)
    (h : Closing o outer { inner with connector := some k } (c.drop 1) r text rest es ks) :
    Closing o outer inner c r (k.glyph :: text) rest es (k :: ks) := by
  obtain rfl := rest_split [k.glyph] hc h.split
  refine ⟨hc, .connector k h.items, ⟨hk, h.agrees⟩, h.depth, ?_⟩
  simpa [Nat.add_comm, extend_connector] using h.next

theorem comparison {run' : List Char} {k : Comparison} (hc : c.rest = run' ++ s)
    (hk : IsComparison run' s k)
    (h : Closing o outer (inner.add (.comparison k)) (c.drop run'.length) r text rest es ks) :
    Closing o outer inner c r (run' ++ text) rest (.comparison k :: es) ks := by
  obtain rfl := rest_split run' hc h.split
  refine ⟨by simp [hc], .comparison hk h.items, h.agrees, ?_, ?_⟩
  · simpa [depthAll, Expr.depth] using h.depth
  · simpa [extend_add] using h.next

theorem stray {x : Char} (hstrict : o.strict = false) (hc : c.rest = x :: s)
    (hstray : StartsStray (x :: s)) (h : Closing o outer inner (c.drop 1) r text rest es ks) :
    Closing o outer inner c r (x :: text) rest es ks := by
  obtain rfl := rest_split [x] hc h.split
  refine ⟨hc, .stray hstrict hstray h.items, h.agrees, h.depth, ?_⟩
  simpa [Nat.add_comm] using h.next

/-- Behind the group that has been entered the run goes on in the group around it. -/
theorem leave (h : Closing o (inner :: outer) (.opened c.offset) (c.drop 1) r text rest es ks)
    {k : Connector} (hk : Governs ks k) :
    run o ⟨outer, inner.add (.group k es), scan (((c.drop 1).drop text.length).drop 1)⟩ = .ok r := by
  have hnext := h.next
  rwa [run_closing (level_le_of_run_eq_ok hnext) (rest_drop_length h.split), close_extend hk]
    at hnext

theorem group {text' rest' : List Char} {ds : List Expr} {js : List Connector} {k : Connector}
    (hc : c.rest = '(' :: s)
    (hinside : Closing o (inner :: outer) (.opened c.offset) (c.drop 1) r text rest ds js)
    (hk : Governs js k)
    (h : Closing o outer (inner.add (.group k ds)) (((c.drop 1).drop text.length).drop 1) r
      text' rest' es ks) :
    Closing o outer inner c r ('(' :: text ++ ')' :: text') rest' (.group k ds :: es) ks := by
  obtain rfl := rest_split ['('] hc hinside.split
  obtain rfl := rest_split [')'] (rest_drop_length hinside.split) h.split
  refine ⟨by simp [hc], .group hinside.items hk h.items, h.agrees, ?_, ?_⟩
  · have hd := hinside.depth
    have hd' := h.depth
    simp only [depthAll, Expr.depth, List.length_cons] at hd hd' ⊢
    omega
  · have hlength : ('(' :: text ++ ')' :: text').length = 1 + text.length + 1 + text'.length := by
      simp only [List.length_append, List.length_cons]
      omega
    rw [hlength, ← extend_add]
    simpa only [drop_drop] using h.next

end Closing

/-- A run that reaches the end of the outer group reads items in the innermost group until
that closes. The induction is on the text that is left, because a group inside is read by a
run of its own with the same end. -/
theorem exists_closing (outer : List Scope) (inner : Scope) (c : Cursor) (r : Reading)
    (h : run o ⟨outer, inner, scan c⟩ = .ok r) :
    ∃ text rest es ks, Closing o outer inner c r text rest es ks := by
  induction hn : c.rest.length using Nat.strongRecOn generalizing outer inner c with
  | ind n ih =>
    subst hn
    have hran := ran_run o outer inner c
    rw [h] at hran
    cases hran with
    | blank hc hx hrun =>
      obtain ⟨_, _, _, _, hclosing⟩ := ih _ (by simp [hc]) outer inner _ hrun rfl
      exact ⟨_, _, _, _, hclosing.blank hc hx⟩
    | enter hc hrun =>
      obtain ⟨text, rest, ds, js, hinside⟩ := ih _ (by simp [hc]) (inner :: outer) _ _ hrun rfl
      obtain ⟨k, hk⟩ := (agrees_none_iff js).1 hinside.agrees
      have hshorter : (((c.drop 1).drop text.length).drop 1).rest.length < c.rest.length := by
        simp only [Cursor.rest_drop, List.length_drop, hc, List.length_cons]
        omega
      obtain ⟨_, _, _, _, hbehind⟩ := ih _ hshorter outer _ _ (hinside.leave hk) rfl
      exact ⟨_, _, _, _, hinside.group hc hk hbehind⟩
    | leave _ hc => exact ⟨_, _, _, _, .nil hc h⟩
    | close _ hc => exact ⟨_, _, _, _, .nil hc h⟩
    | connect hc hk hrun =>
      obtain ⟨_, _, _, _, hclosing⟩ := ih _ (by simp [hc]) outer _ _ hrun rfl
      exact ⟨_, _, _, _, hclosing.connector hc hk⟩
    | compare hc hk hrun =>
      have hsome := List.length_pos_iff.1 hk.length_pos
      obtain ⟨_, _, _, _, hclosing⟩ := ih _ (length_rest_drop_lt hc hsome) outer _ _ hrun rfl
      exact ⟨_, _, _, _, hclosing.comparison hc hk⟩
    | skip hc hstray hstrict hrun =>
      obtain ⟨_, _, _, _, hclosing⟩ := ih _ (by simp [hc]) outer _ _ hrun rfl
      exact ⟨_, _, _, _, hclosing.stray hstrict hc hstray⟩

/-- The outer group is read to its end exactly if a sequence of items stands before the
parenthesis that closes it. -/
theorem run_outer_eq_ok_iff {offset : Nat} {r : Reading} :
    run o ⟨[], .opened offset, scan c⟩ = .ok r ↔
      ∃ text rest es ks k, c.rest = text ++ ')' :: rest ∧
        Items o.strict text (')' :: rest) es ks ∧ Governs ks k ∧
        (Expr.group k es).depth ≤ o.maxDepth ∧
        r = ⟨.group k es, ⟨(c.drop text.length).offset, ')', .closing⟩,
          scan ((c.drop text.length).drop 1)⟩ := by
  constructor
  · intro h
    obtain ⟨text, rest, es, ks, hclosing⟩ := exists_closing [] _ c r h
    obtain ⟨k, hk⟩ := (agrees_none_iff ks).1 hclosing.agrees
    have hnext := hclosing.next
    rw [run_closing_outer (level_le_of_run_eq_ok hnext) (rest_drop_length hclosing.split),
      close_extend hk] at hnext
    exact ⟨text, rest, es, ks, k, hclosing.split, hclosing.items, hk,
      by simpa [Expr.depth] using hclosing.depth, (Except.ok.inj hnext).symm⟩
  · rintro ⟨text, rest, es, ks, k, hc, hitems, hk, hdepth, rfl⟩
    simp only [Expr.depth] at hdepth
    rw [run_items hitems [] _ c hc hk.agrees (by simpa using hdepth),
      run_closing_outer (by omega) (rest_drop_length hc), close_extend hk]

end Sift.Grammar

import Mathlib.Control.Monad.Basic
import Sift.Proofs.Acceptance
import Sift.Proofs.CheckedReading

/-!
# Parsing that can fail

The parser with every step checked. On top of what its readers must not do, a group may be
entered only at a parenthesis, no count of open groups may go below zero, and each turn of the
loop over the items of a group that does not end it has to go forward, within the text. The
parser with these checks has a result for every text, and it is that of the parser without them.

`item?` reads the item that begins with the next character or leaves the group, `turn?` is one
turn of the loop over the items of the innermost group, and `run?` the turns up to the end of
the outer one. A turn from a state that follows a cursor does what the run of the parser does
there.
-/

namespace Sift.Checked

open Sift.Text Sift.Grammar Sift.Expr Moment Lexeme

def matching? (size : Nat) : Region → Nat → Nat → List Char → Option Bool
  | _, _, _, [] => some false
  | .escaped, depth, pos, c :: s => matching? size .quoted depth (pos + c.utf8Size) s
  | .quoted, depth, pos, c :: s =>
    if c = '\'' then matching? size .plain depth (pos + c.utf8Size) s
    else if c = '\\' then matching? size .escaped depth (pos + c.utf8Size) s
    else matching? size .quoted depth (pos + c.utf8Size) s
  | .plain, depth, pos, c :: s =>
    if c = '\'' then matching? size .quoted depth (pos + c.utf8Size) s
    else if c = '(' then matching? size .plain (depth + 1) (pos + c.utf8Size) s
    else if c = ')' then
      match sub? depth 1 with
      | none => none
      | some 0 => some (pos + 1 = size)
      | some (depth + 1) => matching? size .plain (depth + 1) (pos + c.utf8Size) s
    else matching? size .plain depth (pos + c.utf8Size) s

def singleGroup? (s : List Char) : Option Bool :=
  if s.head? = some '(' then matching? (byteLength s) .plain 0 0 s else some false

def normalize? (s : List Char) : Option (List Char) := do
  return if ← singleGroup? (trim s) then trim s else '(' :: trim s ++ [')']

/-- Between two turns of the loop over the items of a group: the place, the number of groups
that have been entered and not left, the innermost one and those around it. -/
structure State where
  pos : Nat
  depth : Nat
  outer : List Scope
  inner : Scope

inductive Turn where
  | next (st : State)
  | failed (error : ParseError)
  | closed (tree : Expr) (pos : Nat)

def enter? (o : ParseOptions) (text : List Char) (pos depth : Nat) (outer : List Scope) :
    Option (Except ParseError State) := do
  let pos ← skipBlanks? text pos
  if (← peek? text pos) = some '(' then
    if o.maxDepth < depth + 1 then return .error (.nestingTooDeep o.maxDepth)
    else return .ok ⟨pos + Char.utf8Size '(', depth + 1, outer, .opened pos⟩
  else none

def connect (st : State) (k : Connector) : Turn :=
  match st.inner.connect? k with
  | some scope => .next { st with pos := st.pos + 1, inner := scope }
  | none => .failed (.mixedLogic st.pos)

def item? (o : ParseOptions) (text : List Char) (st : State) (c : Char) : Option Turn := do
  if c = ')' then
    let depth ← sub? st.depth 1
    match st.outer with
    | [] => return .closed st.inner.close (st.pos + c.utf8Size)
    | scope :: scopes =>
      return .next ⟨st.pos + c.utf8Size, depth, scopes, scope.add st.inner.close⟩
  else if c = '(' then
    match ← enter? o text st.pos st.depth (st.inner :: st.outer) with
    | .error error => return .failed error
    | .ok next => return .next next
  else
    match ← comparison? text st.pos with
    | .error error => return .failed error
    | .ok (some (k, pos)) => return .next { st with pos, inner := st.inner.add (.comparison k) }
    | .ok none =>
      if c = '&' then return connect st .and
      else if c = '|' then return connect st .or
      else if o.strict then return .failed (.unexpectedCharacter c st.pos)
      else return .next { st with pos := st.pos + c.utf8Size }

def turn? (o : ParseOptions) (text : List Char) (st : State) : Option Turn := do
  let pos ← skipBlanks? text st.pos
  match ← peek? text pos with
  | none => return .failed (.unclosedGroup st.inner.offset)
  | some c => item? o text { st with pos } c

/-- The turns up to the end of the outer group. A turn that does not go forward, or goes out of
the text, is not followed by another one. -/
def run? (o : ParseOptions) (text : List Char) (st : State) :
    Option (Except ParseError (Expr × Nat)) :=
  match turn? o text st with
  | none => none
  | some (.failed error) => some (.error error)
  | some (.closed tree pos) => some (.ok (tree, pos))
  | some (.next next) =>
    if st.pos < next.pos ∧ next.pos ≤ byteLength text then run? o text next else none
termination_by byteLength text - st.pos

def parse? (o : ParseOptions) (s : String) : Option (Except ParseError Expr) := do
  let text ← normalize? s.toList
  match ← enter? o text 0 0 [] with
  | .error error => return .error error
  | .ok st =>
    match ← run? o text st with
    | .error error => return .error error
    | .ok (tree, pos) =>
      let pos ← skipBlanks? text pos
      match ← peek? text pos with
      | some c => return .error (.unexpectedCharacter c pos)
      | none => return .ok tree

inductive Visits (o : ParseOptions) (text : List Char) : State → Prop
  | entered {st : State} (h : enter? o text 0 0 [] = some (.ok st)) : Visits o text st
  | turned {st next : State} (hst : Visits o text st) (h : turn? o text st = some (.next next)) :
      Visits o text next

theorem sub?_succ (n : Nat) : sub? (n + 1) 1 = some n := by simp [sub?]

theorem matching?_eq {size depth pos : Nat} {region : Region} {s : List Char}
    (hdepth : 0 < depth) (hsize : size = pos + byteLength s) :
    matching? size region depth pos s = some (closesAtEnd region depth s) := by
  induction s generalizing region depth pos with
  | nil => cases region <;> rfl
  | cons c s ih =>
    have hrest : size = pos + c.utf8Size + byteLength s := by
      rw [hsize, byteLength_cons, Nat.add_assoc]
    cases region with
    | escaped => exact ih hdepth hrest
    | quoted =>
      simp only [matching?, closesAtEnd, ih hdepth hrest, apply_ite some]
    | plain =>
      obtain ⟨depth, rfl⟩ := Nat.exists_eq_succ_of_ne_zero (Nat.ne_of_gt hdepth)
      simp only [matching?, closesAtEnd, ih hdepth hrest, ih (Nat.succ_pos _) hrest, sub?_succ,
        apply_ite some]
      by_cases hclose : c = ')'
      · subst hclose
        cases depth with
        | zero =>
          have hend : pos + 1 = size ↔ s = [] := by
            rw [← byteLength_eq_zero_iff, hrest]
            have hsize : Char.utf8Size ')' = 1 := rfl
            omega
          simp [hend]
        | succ depth => simp
      · simp only [if_neg hclose]

theorem singleGroup?_eq (s : List Char) : singleGroup? s = some (isSingleGroup s) := by
  cases s with
  | nil => rfl
  | cons c s =>
    by_cases hopen : c = '('
    · subst hopen
      have hmatching : matching? (byteLength ('(' :: s)) .plain 1 (0 + Char.utf8Size '(') s =
          some (closesAtEnd .plain 1 s) := matching?_eq (Nat.succ_pos 0) rfl
      exact hmatching
    · simp [singleGroup?, isSingleGroup, hopen]

theorem normalize?_eq (s : List Char) : normalize? s = some (normalizeChars s) := by
  rw [normalize?, singleGroup?_eq]
  rfl

/-- A state stands at a cursor, in groups that are within the limit. -/
structure Follows (o : ParseOptions) (text : List Char) (st : State) (c : Cursor) : Prop where
  within : c.Within text
  pos : st.pos = c.offset
  depth : st.depth = st.outer.length + 1
  limit : st.depth ≤ o.maxDepth

inductive Simulates (o : ParseOptions) (text : List Char) (st : State) (c : Cursor) : Turn → Prop
  | next {next : State} {c' : Cursor} (h : Follows o text next c') (hforward : st.pos < next.pos)
      (hrun : run o ⟨st.outer, st.inner, scan c⟩ = run o ⟨next.outer, next.inner, scan c'⟩) :
      Simulates o text st c (.next next)
  | failed {error : ParseError} (hrun : run o ⟨st.outer, st.inner, scan c⟩ = .error error) :
      Simulates o text st c (.failed error)
  | closed {tree : Expr} {l : Lexeme} {c' : Cursor} (h : c'.Within text)
      (hrun : run o ⟨st.outer, st.inner, scan c⟩ = .ok ⟨tree, l, scan c'⟩) :
      Simulates o text st c (.closed tree c'.offset)

variable {o : ParseOptions} {text : List Char} {st : State} {c : Cursor} {x : Char}
  {s : List Char}

theorem enter?_of_within (h : c.Within text) (hc : c.rest = '(' :: s) (depth : Nat)
    (outer : List Scope) : enter? o text c.offset depth outer = some (
      if o.maxDepth < depth + 1 then .error (.nestingTooDeep o.maxDepth)
      else .ok ⟨(c.drop 1).offset, depth + 1, outer, .opened c.offset⟩) := by
  have hstops : Stops isBlank c.rest := by
    rw [hc, stops_cons]
    decide
  have hskip := skipBlanks?_of_stops (cutFrom?_of_within h) hstops
  simp only [enter?, hskip, Option.bind_eq_bind, Option.bind_some, peek?_of_within h, hc,
    List.head?_cons, if_true, offset_drop_one hc, apply_ite some]
  rfl

namespace Follows

theorem level (h : Follows o text st c) : st.outer.length + 1 ≤ o.maxDepth := h.depth ▸ h.limit

theorem offset_drop_one (h : Follows o text st c) (hc : c.rest = x :: s) :
    st.pos + x.utf8Size = (c.drop 1).offset := by
  rw [Grammar.offset_drop_one hc, h.pos]

theorem pos_lt (h : Follows o text st c) (hc : c.rest = x :: s) : st.pos < (c.drop 1).offset := by
  have hsize := x.utf8Size_pos
  rw [← h.offset_drop_one hc]
  omega

theorem exists_item_closing (h : Follows o text st c) (hc : c.rest = ')' :: s) :
    ∃ turn, item? o text st ')' = some turn ∧ Simulates o text st c turn := by
  have hdepth : sub? st.depth 1 = some st.outer.length := by rw [h.depth, sub?_succ]
  have hlevel := h.level
  have hnext := h.within.drop 1
  simp only [item?, if_true, hdepth, h.offset_drop_one hc, Option.bind_eq_bind, Option.bind_some]
  cases houter : st.outer with
  | nil =>
    rw [houter] at hlevel
    have hrun : run o ⟨st.outer, st.inner, scan c⟩ =
        .ok ⟨st.inner.close, ⟨c.offset, ')', .closing⟩, scan (c.drop 1)⟩ := by
      rw [houter, run_closing_outer hlevel hc]
    exact ⟨_, rfl, .closed hnext hrun⟩
  | cons scope scopes =>
    rw [houter] at hlevel
    refine ⟨_, rfl, .next ⟨hnext, rfl, rfl, Nat.le_of_succ_le hlevel⟩ (h.pos_lt hc) ?_⟩
    rw [houter, run_closing hlevel hc]

theorem exists_item_opening (h : Follows o text st c) (hc : c.rest = '(' :: s) :
    ∃ turn, item? o text st '(' = some turn ∧ Simulates o text st c turn := by
  have hrun : run o ⟨st.outer, st.inner, scan c⟩ =
      run o ⟨st.inner :: st.outer, .opened c.offset, scan (c.drop 1)⟩ := run_opening h.level hc
  rw [item?, if_neg (by decide), if_pos rfl, h.pos, enter?_of_within h.within hc]
  simp only [Option.bind_eq_bind, Option.bind_some]
  by_cases hdeep : o.maxDepth < st.depth + 1
  · rw [if_pos hdeep]
    refine ⟨_, rfl, .failed ?_⟩
    rw [hrun]
    refine run_of_failed (step_of_lt ?_)
    rwa [Moment.level, List.length_cons, ← h.depth]
  · rw [if_neg hdeep]
    refine ⟨_, rfl, .next ⟨h.within.drop 1, rfl, ?_, Nat.not_lt.1 hdeep⟩ (h.pos_lt hc) hrun⟩
    rw [List.length_cons, ← h.depth]

theorem simulates_connect (h : Follows o text st c) {k : Connector} (hc : c.rest = k.glyph :: s) :
    Simulates o text st c (connect st k) := by
  have hone : st.pos + 1 = (c.drop 1).offset := by
    rw [← h.offset_drop_one hc]
    cases k <;> rfl
  have hscan := scan_connector k hc
  unfold connect
  cases hconnect : st.inner.connect? k with
  | none =>
    refine .failed ?_
    rw [hscan, h.pos]
    refine run_of_failed ?_
    rw [step_cons h.level]
    simp only [consume, hconnect]
  | some scope =>
    refine .next ⟨h.within.drop 1, hone, h.depth, h.limit⟩ (Nat.lt_succ_self st.pos) ?_
    rw [hscan]
    refine run_of_next ?_
    rw [step_cons h.level]
    simp only [consume, hconnect]

theorem simulates_comparison (h : Follows o text st c) {k : Comparison} {next : Cursor}
    (hread : readComparison c = .comparison k next) : Simulates o text st c
      (.next { st with pos := next.offset, inner := st.inner.add (.comparison k) }) := by
  obtain ⟨run', after, hc, hk, rfl⟩ := isComparison_of_readComparison hread
  have hforward : st.pos < (c.drop run'.length).skipBlanks.offset := by
    have hsome : byteLength run' ≠ 0 := by
      rw [Ne, byteLength_eq_zero_iff]
      exact List.length_pos_iff.1 hk.length_pos
    have hle : (c.drop run'.length).offset ≤ (c.drop run'.length).skipBlanks.offset :=
      Nat.le_add_right _ _
    rw [offset_drop_length hc, ← h.pos] at hle
    omega
  have hwithin : (c.drop run'.length).skipBlanks.Within text := (h.within.drop _).drop _
  refine .next ⟨hwithin, rfl, h.depth, h.limit⟩ hforward ?_
  rw [run_comparison h.level hk hc, scan_skipBlanks]

/-- The item at a cursor is read as the parser reads it. -/
theorem exists_item (h : Follows o text st c) (hc : c.rest = x :: s) (hx : isBlank x = false) :
    ∃ turn, item? o text st x = some turn ∧ Simulates o text st c turn := by
  by_cases hclose : x = ')'
  · subst hclose
    exact h.exists_item_closing hc
  by_cases hopen : x = '('
  · subst hopen
    exact h.exists_item_opening hc
  have hscan := scan_other hc hx (by simp [hclose, hopen])
  simp only [item?, if_neg hclose, if_neg hopen, h.pos, comparison?_of_within h.within,
    Option.bind_eq_bind, Option.bind_some]
  cases hread : readComparison c with
  | fault error =>
    rw [hread] at hscan
    refine ⟨_, rfl, .failed ?_⟩
    rw [hscan, run_of_failed (step_cons h.level)]
  | comparison k next => exact ⟨_, rfl, h.simulates_comparison hread⟩
  | nothing =>
    by_cases hand : x = '&'
    · subst hand
      exact ⟨_, rfl, h.simulates_connect (k := .and) hc⟩
    by_cases hor : x = '|'
    · subst hor
      exact ⟨_, rfl, h.simulates_connect (k := .or) hc⟩
    rw [hread] at hscan
    simp only [if_neg hand, if_neg hor] at hscan ⊢
    cases hstrict : o.strict with
    | true =>
      refine ⟨_, rfl, .failed ?_⟩
      rw [hscan]
      refine run_of_failed ?_
      rw [step_cons h.level, hstrict]
      rfl
    | false =>
      have hone := h.offset_drop_one hc
      rw [h.pos] at hone
      refine ⟨_, rfl, .next ⟨h.within.drop 1, hone, h.depth, h.limit⟩ (hone ▸ h.pos_lt hc) ?_⟩
      rw [hscan]
      refine run_of_next ?_
      rw [step_cons h.level, hstrict]
      rfl

theorem exists_turn (h : Follows o text st c) :
    ∃ turn, turn? o text st = some turn ∧ Simulates o text st c turn := by
  have hwithin : c.skipBlanks.Within text := h.within.drop _
  have hle : st.pos ≤ c.skipBlanks.offset := h.pos ▸ Nat.le_add_right _ _
  have hstops : Stops isBlank c.skipBlanks.rest := by
    rw [Cursor.skipBlanks, Cursor.rest_skipWhile]
    exact stops_dropWhile _ _
  have hscan := scan_skipBlanks c
  simp only [turn?, h.pos, skipBlanks?_of_within h.within, Option.bind_eq_bind, Option.bind_some,
    peek?_of_within hwithin]
  generalize c.skipBlanks = d at hwithin hle hstops hscan
  have hd : Follows o text { st with pos := d.offset } d := ⟨hwithin, rfl, h.depth, h.limit⟩
  cases hrest : d.rest with
  | nil =>
    refine ⟨_, rfl, .failed ?_⟩
    rw [← hscan, scan_nil hrest]
    exact run_of_failed (step_nil h.level)
  | cons x s =>
    rw [hrest] at hstops
    obtain ⟨turn, hturn, hsimulates⟩ := hd.exists_item hrest hstops
    refine ⟨turn, hturn, ?_⟩
    cases hsimulates with
    | next hnext hforward hrun =>
      exact .next hnext (Nat.lt_of_le_of_lt hle hforward) (hscan ▸ hrun)
    | failed hrun => exact .failed (hscan ▸ hrun)
    | closed hnext hrun => exact .closed hnext (hscan ▸ hrun)

end Follows

theorem byteLength_rest_of_within (h : c.Within text) :
    c.offset + byteLength c.rest = byteLength text := by
  obtain ⟨read, rfl, hoffset⟩ := h
  rw [hoffset, byteLength_append]

/-- The induction is on what is left of the text, which every turn makes less. -/
theorem exists_run (h : Follows o text st c) :
    (∃ error, run? o text st = some (.error error) ∧
      run o ⟨st.outer, st.inner, scan c⟩ = .error error) ∨
    ∃ tree l c', c'.Within text ∧ run? o text st = some (.ok (tree, c'.offset)) ∧
      run o ⟨st.outer, st.inner, scan c⟩ = .ok ⟨tree, l, scan c'⟩ := by
  induction hn : byteLength text - st.pos using Nat.strongRecOn generalizing st c with
  | ind n ih =>
    obtain ⟨turn, hturn, hsimulates⟩ := h.exists_turn
    rw [run?, hturn]
    cases hsimulates with
    | failed hrun => exact .inl ⟨_, rfl, hrun⟩
    | closed hwithin hrun => exact .inr ⟨_, _, _, hwithin, rfl, hrun⟩
    | @next next c' hnext hforward hrun =>
      have hle : next.pos ≤ byteLength text := by
        rw [← byteLength_rest_of_within hnext.within, hnext.pos]
        exact Nat.le_add_right _ _
      rw [hrun]
      simp only [hforward, hle, and_self, if_true]
      exact ih _ (by omega) hnext rfl

/-- What the parser makes of the text behind the outer group. -/
theorem finish_scan (c : Cursor) (tree : Expr) : finish tree (scan c) =
    match c.skipBlanks.rest with
    | [] => .ok tree
    | x :: _ => .error (.unexpectedCharacter x c.skipBlanks.offset) := by
  rw [← scan_skipBlanks]
  have hstops : Stops isBlank c.skipBlanks.rest := by
    rw [Cursor.skipBlanks, Cursor.rest_skipWhile]
    exact stops_dropWhile _ _
  generalize c.skipBlanks = d at hstops ⊢
  cases hscan : scan d with
  | nil =>
    have hblank := (scan_eq_nil_iff d).1 hscan
    cases hrest : d.rest with
    | nil => rfl
    | cons x s => simp_all
  | cons l ls =>
    obtain ⟨gap, rest, hrest, hgap, -, hoffset⟩ := exists_of_scan_eq_cons hscan
    cases gap with
    | nil =>
      rw [byteLength_nil, Nat.add_zero] at hoffset
      simp [hrest, finish, hoffset]
    | cons x gap =>
      rw [hrest] at hstops
      simp_all

/-- The outer group is entered with the first character. -/
theorem enter?_normalizeChars (o : ParseOptions) (s : String) :
    enter? o (normalizeChars s.toList) 0 0 [] = some (
      if o.maxDepth < 1 then .error (.nestingTooDeep o.maxDepth)
      else .ok ⟨((Cursor.start (normalizeChars s.toList)).drop 1).offset, 1, [], .opened 0⟩) := by
  obtain ⟨inner, hinner⟩ := exists_normalizeChars_eq s.toList
  exact enter?_of_within (Cursor.within_start _) hinner 0 []

theorem start_eq (s : String) : Moment.start s =
    ⟨[], .opened 0, scan ((Cursor.start (normalizeChars s.toList)).drop 1)⟩ := by
  obtain ⟨inner, hinner⟩ := exists_normalizeChars_eq s.toList
  have hopen : (Cursor.start (normalizeChars s.toList)).rest = '(' :: (inner ++ [')']) := hinner
  rw [Moment.start, lexemes, scan_opening hopen, List.tail_cons]

theorem follows_entered (h : ¬ o.maxDepth < 1) (s : String) :
    Follows o (normalizeChars s.toList)
      ⟨((Cursor.start (normalizeChars s.toList)).drop 1).offset, 1, [], .opened 0⟩
      ((Cursor.start (normalizeChars s.toList)).drop 1) :=
  ⟨(Cursor.within_start _).drop 1, rfl, rfl, Nat.not_lt.1 h⟩

theorem parse?_eq (o : ParseOptions) (s : String) : parse? o s = some (Expr.parse o s) := by
  rw [parse?, normalize?_eq, parse_eq_run, start_eq]
  simp only [Option.bind_eq_bind, Option.bind_some, enter?_normalizeChars]
  by_cases hdeep : o.maxDepth < 1
  · rw [if_pos hdeep, run_of_failed (step_of_lt hdeep)]
    rfl
  · rw [if_neg hdeep]
    rcases exists_run (follows_entered hdeep s) with
      ⟨error, hrun?, hrun⟩ | ⟨tree, l, c, hwithin, hrun?, hrun⟩
    · simp only [hrun?, Option.bind_some, hrun]
      rfl
    · have hwithin' : c.skipBlanks.Within (normalizeChars s.toList) := hwithin.drop _
      simp only [hrun?, Option.bind_some, hrun, skipBlanks?_of_within hwithin,
        peek?_of_within hwithin', Except.bind, Reading.finished, finish_scan]
      cases c.skipBlanks.rest <;> rfl

theorem follows_of_visits {s : String} (h : Visits o (normalizeChars s.toList) st) :
    ∃ c, Follows o (normalizeChars s.toList) st c := by
  induction h with
  | entered h =>
    rw [enter?_normalizeChars] at h
    by_cases hdeep : o.maxDepth < 1
    · simp [hdeep] at h
    · rw [if_neg hdeep] at h
      obtain rfl := Except.ok.inj (Option.some.inj h)
      exact ⟨_, follows_entered hdeep s⟩
  | turned _ hturn ih =>
    obtain ⟨c, hc⟩ := ih
    obtain ⟨turn, hturn', hsimulates⟩ := hc.exists_turn
    obtain rfl := Option.some.inj (hturn.symm.trans hturn')
    cases hsimulates with
    | next hnext => exact ⟨_, hnext⟩

/-- Parsing with checks is parsing. The outer group is looked for without a count below zero, and
between two turns the text can be cut at the place that has been reached, the groups entered
are those that are open and no more than the limit, and the next turn goes forward in the text
unless it ends the run. -/
theorem parse_total (o : ParseOptions) (s : String) :
    singleGroup? (trim s.toList) = some (isSingleGroup (trim s.toList)) ∧
    (∀ st, Visits o (normalizeChars s.toList) st →
      (∃ ahead, cutFrom? (normalizeChars s.toList) st.pos = some ahead) ∧
        st.depth = st.outer.length + 1 ∧ st.depth ≤ o.maxDepth ∧
        ∃ turn, turn? o (normalizeChars s.toList) st = some turn ∧ ∀ next, turn = .next next →
          st.pos < next.pos ∧ next.pos ≤ byteLength (normalizeChars s.toList)) ∧
    parse? o s = some (Expr.parse o s) := by
  refine ⟨singleGroup?_eq _, fun st hst => ?_, parse?_eq o s⟩
  obtain ⟨c, hc⟩ := follows_of_visits hst
  obtain ⟨turn, hturn, hsimulates⟩ := hc.exists_turn
  refine ⟨⟨c.rest, hc.pos ▸ cutFrom?_of_within hc.within⟩, hc.depth, hc.limit, turn, hturn, ?_⟩
  rintro next rfl
  cases hsimulates with
  | next hnext hforward =>
    refine ⟨hforward, ?_⟩
    rw [← byteLength_rest_of_within hnext.within, hnext.pos]
    exact Nat.le_add_right _ _

/-- Characters of two and three bytes that are skipped, quoted and escaped. -/
theorem parse_total_wide :
    parse? .default "é(a='ü\\€'|b.c >=-1.5)€" = some (.ok (.group .and
      [.group .or [.comparison ⟨"a", "=", .string "ü€"⟩,
        .comparison ⟨"b.c", ">=", .float (Binary64.ofDecimal ⟨true, 15, -1⟩)⟩]])) ∧
      ∃ st, Visits .default (normalizeChars "é(a='ü\\€'|b.c >=-1.5)€".toList) st ∧
        ∃ turn, turn? .default (normalizeChars "é(a='ü\\€'|b.c >=-1.5)€".toList) st =
          some turn := by
  have hentered := enter?_normalizeChars .default "é(a='ü\\€'|b.c >=-1.5)€"
  rw [if_neg (by decide)] at hentered
  obtain ⟨-, hvisits, hparse⟩ := parse_total .default "é(a='ü\\€'|b.c >=-1.5)€"
  have hresult : Expr.parse .default "é(a='ü\\€'|b.c >=-1.5)€" = .ok (.group .and
      [.group .or [.comparison ⟨"a", "=", .string "ü€"⟩,
        .comparison ⟨"b.c", ">=", .float (Binary64.ofDecimal ⟨true, 15, -1⟩)⟩]]) := by
    decide +kernel
  obtain ⟨-, -, -, turn, hturn, -⟩ := hvisits _ (.entered hentered)
  exact ⟨hparse.trans (congrArg some hresult), _, .entered hentered, turn, hturn⟩

end Sift.Checked

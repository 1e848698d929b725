import Mathlib.Logic.Relation
import Sift.Proofs.Balanced
import Sift.Proofs.Scanning

/-!
# The descent into groups

A group is entered at the parenthesis that opens it and left at the one that closes it. A
moment of the reading is given by the groups that have been entered and not left and by the
lexemes ahead. One step enters a group, leaves one or reads a lexeme in the innermost one,
and a group that lies too deep is entered before it is refused. Parsing is the run of these
steps to the end of the outer group and a look at what stands behind it.

`consume` is what a lexeme does to the groups that have been entered, and `level` is their
number. `Took` has a case for everything that a step can do.
-/

namespace Sift.Expr

open Sift.Text

/-- The outer group when it has been read: its tree, the lexeme that closes it and the
lexemes behind it. -/
structure Reading where
  tree : Expr
  closing : Lexeme
  behind : List Lexeme

def Reading.finished (r : Reading) : Except ParseError Expr := finish r.tree r.behind

structure Moment where
  outer : List Scope
  inner : Scope
  ahead : List Lexeme

inductive Step where
  | next (m : Moment)
  | failed (error : ParseError)
  | closed (r : Reading)

namespace Moment

def start (s : String) : Moment := ⟨[], .opened 0, (lexemes s).tail⟩

def level (m : Moment) : Nat := m.outer.length + 1

def consume (strict : Bool) (outer : List Scope) (inner : Scope) (l : Lexeme) (ls : List Lexeme) :
    Step :=
  match l.token with
  | .opening => .next ⟨inner :: outer, .opened l.offset, ls⟩
  | .closing =>
    match outer with
    | [] => .closed ⟨inner.close, l, ls⟩
    | scope :: scopes => .next ⟨scopes, scope.add inner.close, ls⟩
  | .connector c =>
    match inner.connect? c with
    | some scope => .next ⟨outer, scope, ls⟩
    | none => .failed (.mixedLogic l.offset)
  | .comparison c => .next ⟨outer, inner.add (.comparison c), ls⟩
  | .stray =>
    if strict then .failed (.unexpectedCharacter l.head l.offset) else .next ⟨outer, inner, ls⟩
  | .fault error => .failed error

def step (o : ParseOptions) (m : Moment) : Step :=
  if o.maxDepth < m.level then .failed (.nestingTooDeep o.maxDepth)
  else
    match m.ahead with
    | [] => .failed (.unclosedGroup m.inner.offset)
    | l :: ls => consume o.strict m.outer m.inner l ls

theorem step_of_lt {o : ParseOptions} {m : Moment} (h : o.maxDepth < m.level) :
    step o m = .failed (.nestingTooDeep o.maxDepth) := if_pos h

theorem step_nil {o : ParseOptions} {outer : List Scope} {inner : Scope}
    (h : outer.length + 1 ≤ o.maxDepth) :
    step o ⟨outer, inner, []⟩ = .failed (.unclosedGroup inner.offset) :=
  if_neg (Nat.not_lt.2 h)

theorem step_cons {o : ParseOptions} {outer : List Scope} {inner : Scope} {l : Lexeme}
    {ls : List Lexeme} (h : outer.length + 1 ≤ o.maxDepth) :
    step o ⟨outer, inner, l :: ls⟩ = consume o.strict outer inner l ls :=
  if_neg (Nat.not_lt.2 h)

/-- All that a step can do, and when it does it. -/
inductive Took (o : ParseOptions) (m : Moment) : Step → Prop
  | tooDeep (h : o.maxDepth < m.level) : Took o m (.failed (.nestingTooDeep o.maxDepth))
  | unclosed (h : m.level ≤ o.maxDepth) (hend : m.ahead = []) :
      Took o m (.failed (.unclosedGroup m.inner.offset))
  | enter {l : Lexeme} {ls : List Lexeme} (h : m.level ≤ o.maxDepth) (hl : m.ahead = l :: ls)
      (htoken : l.token = .opening) :
      Took o m (.next ⟨m.inner :: m.outer, .opened l.offset, ls⟩)
  | leave {l : Lexeme} {ls : List Lexeme} {scope : Scope} {scopes : List Scope}
      (h : m.level ≤ o.maxDepth) (hl : m.ahead = l :: ls) (htoken : l.token = .closing)
      (houter : m.outer = scope :: scopes) :
      Took o m (.next ⟨scopes, scope.add m.inner.close, ls⟩)
  | close {l : Lexeme} {ls : List Lexeme} (h : m.level ≤ o.maxDepth) (hl : m.ahead = l :: ls)
      (htoken : l.token = .closing) (houter : m.outer = []) :
      Took o m (.closed ⟨m.inner.close, l, ls⟩)
  | connect {l : Lexeme} {ls : List Lexeme} {c : Connector} {scope : Scope}
      (h : m.level ≤ o.maxDepth) (hl : m.ahead = l :: ls) (htoken : l.token = .connector c)
      (hconnect : m.inner.connect? c = some scope) : Took o m (.next ⟨m.outer, scope, ls⟩)
  | mixed {l : Lexeme} {ls : List Lexeme} {c : Connector} (h : m.level ≤ o.maxDepth)
      (hl : m.ahead = l :: ls) (htoken : l.token = .connector c)
      (hconnect : m.inner.connect? c = none) : Took o m (.failed (.mixedLogic l.offset))
  | compare {l : Lexeme} {ls : List Lexeme} {c : Comparison} (h : m.level ≤ o.maxDepth)
      (hl : m.ahead = l :: ls) (htoken : l.token = .comparison c) :
      Took o m (.next ⟨m.outer, m.inner.add (.comparison c), ls⟩)
  | skip {l : Lexeme} {ls : List Lexeme} (h : m.level ≤ o.maxDepth) (hl : m.ahead = l :: ls)
      (htoken : l.token = .stray) (hstrict : o.strict = false) :
      Took o m (.next ⟨m.outer, m.inner, ls⟩)
  | refuse {l : Lexeme} {ls : List Lexeme} (h : m.level ≤ o.maxDepth) (hl : m.ahead = l :: ls)
      (htoken : l.token = .stray) (hstrict : o.strict = true) :
      Took o m (.failed (.unexpectedCharacter l.head l.offset))
  | fault {l : Lexeme} {ls : List Lexeme} {error : ParseError} (h : m.level ≤ o.maxDepth)
      (hl : m.ahead = l :: ls) (htoken : l.token = .fault error) : Took o m (.failed error)

theorem took_step (o : ParseOptions) (m : Moment) : Took o m (step o m) := by
  by_cases hdeep : o.maxDepth < m.level
  · rw [step_of_lt hdeep]
    exact .tooDeep hdeep
  · obtain ⟨outer, inner, ahead⟩ := m
    have hlevel : outer.length + 1 ≤ o.maxDepth := Nat.not_lt.1 hdeep
    cases ahead with
    | nil =>
      rw [step_nil hlevel]
      exact .unclosed hlevel rfl
    | cons l ls =>
      rw [step_cons hlevel]
      unfold consume
      cases htoken : l.token with
      | opening => exact .enter hlevel rfl htoken
      | closing =>
        cases outer with
        | nil => exact .close hlevel rfl htoken rfl
        | cons scope scopes => exact .leave hlevel rfl htoken rfl
      | connector c =>
        cases hconnect : inner.connect? c with
        | none =>
          simp only [hconnect]
          exact .mixed hlevel rfl htoken hconnect
        | some scope =>
          simp only [hconnect]
          exact .connect hlevel rfl htoken hconnect
      | comparison c => exact .compare hlevel rfl htoken
      | stray =>
        cases hstrict : o.strict with
        | true => exact .refuse hlevel rfl htoken hstrict
        | false => exact .skip hlevel rfl htoken hstrict
      | fault error => exact .fault hlevel rfl htoken

/-- A step goes on from a moment within the limit, reads one lexeme and enters one group at
most. -/
theorem of_step_eq_next {o : ParseOptions} {m n : Moment} (h : step o m = .next n) :
    m.level ≤ o.maxDepth ∧ n.level ≤ m.level + 1 ∧ ∃ l, m.ahead = l :: n.ahead := by
  have htook := took_step o m
  rw [h] at htook
  cases htook with
  | enter hlevel hl => exact ⟨hlevel, Nat.le_refl _, _, hl⟩
  | leave hlevel hl _ houter => exact ⟨hlevel, by simp [level, houter], _, hl⟩
  | connect hlevel hl => exact ⟨hlevel, Nat.le_succ _, _, hl⟩
  | compare hlevel hl => exact ⟨hlevel, Nat.le_succ _, _, hl⟩
  | skip hlevel hl => exact ⟨hlevel, Nat.le_succ _, _, hl⟩

theorem of_step_eq_closed {o : ParseOptions} {m : Moment} {r : Reading}
    (h : step o m = .closed r) : m.ahead = r.closing :: r.behind ∧ r.closing.token = .closing := by
  have htook := took_step o m
  rw [h] at htook
  cases htook with
  | close _ hl htoken => exact ⟨hl, htoken⟩

def run (o : ParseOptions) (m : Moment) : Except ParseError Reading :=
  match _ : step o m with
  | .next n => run o n
  | .failed error => .error error
  | .closed r => .ok r
termination_by m.ahead.length
decreasing_by
  obtain ⟨-, -, l, hl⟩ := of_step_eq_next ‹_›
  simp [hl]

theorem run_of_next {o : ParseOptions} {m n : Moment} (h : step o m = .next n) :
    run o m = run o n := by
  rw [run]
  split <;> simp_all

theorem run_of_failed {o : ParseOptions} {m : Moment} {error : ParseError}
    (h : step o m = .failed error) : run o m = .error error := by
  rw [run]
  split <;> simp_all

theorem run_of_closed {o : ParseOptions} {m : Moment} {r : Reading}
    (h : step o m = .closed r) : run o m = .ok r := by
  rw [run]
  split <;> simp_all

theorem level_le_of_run_eq_ok {o : ParseOptions} {m : Moment} {r : Reading}
    (h : run o m = .ok r) : m.level ≤ o.maxDepth := by
  apply Nat.le_of_not_lt
  intro hdeep
  rw [run_of_failed (step_of_lt hdeep)] at h
  cases h

/-- Two ways to read that take the same steps, unless the first is refused for a reason of
its own, end in the same way or with such a refusal. -/
theorem run_eq_or_refused {o o' : ParseOptions} {p : ParseError → Prop}
    (hstep : ∀ m, step o m = step o' m ∨ ∃ error, step o m = .failed error ∧ p error)
    (m : Moment) : run o m = run o' m ∨ ∃ error, run o m = .error error ∧ p error := by
  fun_induction run o m with
  | case1 m n h ih =>
    rcases hstep m with heq | ⟨error, hfailed, -⟩
    · rw [run_of_next (heq.symm.trans h)]
      exact ih
    · rw [h] at hfailed
      cases hfailed
  | case2 m error h =>
    rcases hstep m with heq | ⟨error', hfailed, hp⟩
    · exact .inl (run_of_failed (heq.symm.trans h)).symm
    · rw [h] at hfailed
      cases hfailed
      exact .inr ⟨error, rfl, hp⟩
  | case3 m r h =>
    rcases hstep m with heq | ⟨error, hfailed, -⟩
    · exact .inl (run_of_closed (heq.symm.trans h)).symm
    · rw [h] at hfailed
      cases hfailed

theorem assemble_eq_run {o : ParseOptions} (outer : List Scope) (inner : Scope)
    (ls : List Lexeme) (h : outer.length + 1 ≤ o.maxDepth) :
    assemble o outer inner ls = (run o ⟨outer, inner, ls⟩).bind Reading.finished := by
  induction ls generalizing outer inner with
  | nil =>
    rw [run_of_failed (step_nil h)]
    rfl
  | cons l ls ih =>
    have htook := took_step o ⟨outer, inner, l :: ls⟩
    generalize hstep : step o ⟨outer, inner, l :: ls⟩ = s at htook
    cases htook with
    | tooDeep hdeep => exact absurd hdeep (Nat.not_lt.2 h)
    | unclosed _ hend => cases hend
    | enter _ hl htoken =>
      obtain ⟨rfl, rfl⟩ := List.cons.inj hl
      simp only [assemble, htoken, run_of_next hstep]
      by_cases hdeep : o.maxDepth < outer.length + 2
      · rw [if_pos hdeep, run_of_failed (step_of_lt hdeep)]
        rfl
      · rw [if_neg hdeep]
        exact ih _ _ (Nat.not_lt.1 hdeep)
    | leave _ hl htoken houter =>
      obtain ⟨rfl, rfl⟩ := List.cons.inj hl
      obtain rfl := houter
      simp only [assemble, htoken, run_of_next hstep]
      exact ih _ _ (Nat.le_of_succ_le h)
    | close _ hl htoken houter =>
      obtain ⟨rfl, rfl⟩ := List.cons.inj hl
      obtain rfl := houter
      simp only [assemble, htoken, run_of_closed hstep]
      rfl
    | connect _ hl htoken hconnect =>
      obtain ⟨rfl, rfl⟩ := List.cons.inj hl
      simp only [assemble, htoken, hconnect, run_of_next hstep]
      exact ih _ _ h
    | mixed _ hl htoken hconnect =>
      obtain ⟨rfl, rfl⟩ := List.cons.inj hl
      simp only [assemble, htoken, hconnect, run_of_failed hstep]
      rfl
    | compare _ hl htoken =>
      obtain ⟨rfl, rfl⟩ := List.cons.inj hl
      simp only [assemble, htoken, run_of_next hstep]
      exact ih _ _ h
    | skip _ hl htoken hstrict =>
      obtain ⟨rfl, rfl⟩ := List.cons.inj hl
      simp only [assemble, htoken, hstrict, run_of_next hstep]
      exact ih _ _ h
    | refuse _ hl htoken hstrict =>
      obtain ⟨rfl, rfl⟩ := List.cons.inj hl
      simp only [assemble, htoken, hstrict, run_of_failed hstep]
      rfl
    | fault _ hl htoken =>
      obtain ⟨rfl, rfl⟩ := List.cons.inj hl
      simp only [assemble, htoken, run_of_failed hstep]
      rfl

theorem ofLexemes_eq_run (o : ParseOptions) (offset : Nat) (x : Char) (ls : List Lexeme) :
    ofLexemes o (⟨offset, x, .opening⟩ :: ls) =
      (run o ⟨[], .opened offset, ls⟩).bind Reading.finished := by
  simp only [ofLexemes, if_true]
  split
  · next hdeep =>
    rw [run_of_failed (step_of_lt hdeep)]
    rfl
  · next hdeep => exact assemble_eq_run [] _ ls (Nat.not_lt.1 hdeep)

end Moment

open Moment

theorem lexemes_eq_cons (s : String) : lexemes s = ⟨0, '(', .opening⟩ :: (lexemes s).tail := by
  obtain ⟨inner, hinner⟩ := Grammar.exists_normalizeChars_eq s.toList
  rw [lexemes, hinner, Grammar.scan_opening (c := Cursor.start ('(' :: (inner ++ [')']))) rfl]
  rfl

theorem parse_eq_run (o : ParseOptions) (s : String) :
    Expr.parse o s = (run o (start s)).bind Reading.finished := by
  rw [Expr.parse, lexemes_eq_cons, ofLexemes_eq_run]
  rfl

theorem parse_eq_or_refused {o o' : ParseOptions} {p : ParseError → Prop}
    (hstep : ∀ m, step o m = step o' m ∨ ∃ error, step o m = .failed error ∧ p error)
    (s : String) :
    Expr.parse o s = Expr.parse o' s ∨ ∃ error, Expr.parse o s = .error error ∧ p error := by
  rw [parse_eq_run, parse_eq_run]
  rcases run_eq_or_refused hstep (start s) with h | ⟨error, h, hp⟩
  · exact .inl (by rw [h])
  · exact .inr ⟨error, by rw [h]; rfl, hp⟩

end Sift.Expr

import Mathlib.Control.Monad.Basic
import Sift.Proofs.Acceptance

/-!
# The nesting limit

The limit only ever refuses: a reading that it does not refuse is the same under every
higher limit. It is exact, because a reading that succeeds enters as many groups at a time
as its tree is deep, and a group is entered before it is refused, so one more than the limit
allows is the most there can be at any moment.

`Reaches` has the moments that come after one in a run.
-/

namespace Sift.Expr

open Sift.Grammar Moment

namespace Moment

def Reaches (o : ParseOptions) : Moment → Moment → Prop :=
  Relation.ReflTransGen fun m n => step o m = .next n

theorem run_of_reaches {o : ParseOptions} {m n : Moment} (h : Reaches o m n) :
    run o m = run o n := by
  induction h with
  | refl => rfl
  | tail _ hstep ih => rw [ih, run_of_next hstep]

/-- A step that enters a group begins within the limit, so the limit is exceeded by one at
most. -/
theorem level_le_of_reaches {o : ParseOptions} {m n : Moment} (h : Reaches o m n)
    (hm : m.level ≤ o.maxDepth + 1) : n.level ≤ o.maxDepth + 1 := by
  induction h with
  | refl => exact hm
  | tail _ hstep ih =>
    obtain ⟨hlevel, hnext, -⟩ := of_step_eq_next hstep
    omega

theorem level_start (s : String) : (start s).level = 1 := rfl

theorem step_eq_or_tooDeep (strict : Bool) {d d' : Nat} (h : d ≤ d') (m : Moment) :
    step ⟨strict, d⟩ m = step ⟨strict, d'⟩ m ∨
      ∃ error, step ⟨strict, d⟩ m = .failed error ∧ error = .nestingTooDeep d := by
  by_cases hdeep : d < m.level
  · exact .inr ⟨_, step_of_lt hdeep, rfl⟩
  · have hdeep' : ¬ d' < m.level := by omega
    exact .inl (by simp only [step, hdeep, hdeep', if_false])

end Moment

theorem parse_eq_or_tooDeep (strict : Bool) {d d' : Nat} (h : d ≤ d') (s : String) :
    Expr.parse ⟨strict, d'⟩ s = Expr.parse ⟨strict, d⟩ s ∨
      Expr.parse ⟨strict, d⟩ s = .error (.nestingTooDeep d) := by
  rcases parse_eq_or_refused (step_eq_or_tooDeep strict h) s with heq | ⟨error, hrefused, rfl⟩
  · exact .inl heq.symm
  · exact .inr hrefused

/-- A success under one limit says what happens under every other one. -/
theorem parse_eq_ite_of_eq_ok {strict : Bool} {d : Nat} {s : String} {e : Expr}
    (h : Expr.parse ⟨strict, d⟩ s = .ok e) (d' : Nat) :
    Expr.parse ⟨strict, d'⟩ s =
      if e.depth ≤ d' then .ok e else .error (.nestingTooDeep d') := by
  split
  · next hdepth => exact (parse_eq_ok_iff_of_eq_ok h d').2 hdepth
  · next hdepth =>
    have hle : d' ≤ d := by
      have hd := (parse_eq_ok_iff_of_eq_ok h d).1 h
      omega
    rcases parse_eq_or_tooDeep strict hle s with heq | hdeep
    · exact absurd ((parse_eq_ok_iff_of_eq_ok h d').1 (heq.symm.trans h)) hdepth
    · exact hdeep

/-- The limit is a guard and nothing else, it refuses exactly the trees that are deeper, and
a group beyond it is entered only to be refused. -/
theorem nestingLimit_exact (strict : Bool) (s : String) :
    (∀ d d', d ≤ d' → (∀ limit, Expr.parse ⟨strict, d⟩ s ≠ .error (.nestingTooDeep limit)) →
      Expr.parse ⟨strict, d'⟩ s = Expr.parse ⟨strict, d⟩ s) ∧
    (∀ limit e, Expr.parse ⟨strict, limit⟩ s = .ok e → ∀ d,
      Expr.parse ⟨strict, d⟩ s =
        if e.depth ≤ d then .ok e else .error (.nestingTooDeep d)) ∧
    ∀ d m, Reaches ⟨strict, d⟩ (start s) m →
      m.level ≤ d + 1 ∧
        (d < m.level → Expr.parse ⟨strict, d⟩ s = .error (.nestingTooDeep d)) := by
  refine ⟨fun d d' h hfits => ?_, fun limit e h d => parse_eq_ite_of_eq_ok h d,
    fun d m h => ⟨?_, fun hdeep => ?_⟩⟩
  · exact (parse_eq_or_tooDeep strict h s).resolve_right (hfits d)
  · exact level_le_of_reaches h (by rw [level_start]; omega)
  · rw [parse_eq_run, run_of_reaches h, run_of_failed (step_of_lt hdeep)]
    rfl

/-- Groups side by side, the deepest of them two levels below the outer one. -/
theorem nestingLimit_exact_sideBySide :
    Expr.parse ⟨true, 3⟩ "(a=1)&((b=2))" =
        .ok (.group .and [.group .and [.comparison ⟨"a", "=", .int 1⟩],
          .group .and [.group .and [.comparison ⟨"b", "=", .int 2⟩]]]) ∧
      Expr.parse ⟨true, 9⟩ "(a=1)&((b=2))" = Expr.parse ⟨true, 3⟩ "(a=1)&((b=2))" ∧
      Expr.parse ⟨true, 2⟩ "(a=1)&((b=2))" = .error (.nestingTooDeep 2) ∧
      (start "(a=1)&((b=2))").level ≤ 0 + 1 := by
  obtain ⟨hguard, hexact, hlevel⟩ := nestingLimit_exact true "(a=1)&((b=2))"
  have h : Expr.parse ⟨true, 3⟩ "(a=1)&((b=2))" =
      .ok (.group .and [.group .and [.comparison ⟨"a", "=", .int 1⟩],
        .group .and [.group .and [.comparison ⟨"b", "=", .int 2⟩]]]) := by
    decide +kernel
  refine ⟨h, hguard 3 9 (by decide) ?_, ?_, (hlevel 0 _ .refl).1⟩
  · intro limit
    simp [h]
  · rw [hexact 3 _ h 2]
    rfl

end Sift.Expr

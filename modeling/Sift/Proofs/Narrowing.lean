import Sift.Proofs.FilterTruth

/-!
# Filters as restrictions

A filter stands behind the conditions that a query already has, joined by AND. It restricts
the query as a whole if none of these is joined by OR. Otherwise it restricts only the last
alternative, and an earlier one lets a row through without the filter.
-/

namespace Sift.Filter

variable {f : Filter}

/-- The query is true afterwards just if it was true before and the filter is. -/
def Narrows (v : Atom → Truth) (before after group : List (Connector × Condition)) : Prop :=
  Condition.truthAll v after = .true ↔
    Condition.truthAll v before = .true ∧ Condition.truthAll v group = .true

theorem narrows_concat_iff (v : Atom → Truth) (before group : List (Connector × Condition)) :
    Narrows v before (before ++ [(.and, .nested group)]) group ↔
      (Condition.EarlierAlternative v before → Condition.truthAll v group = .true) := by
  have hafter := Condition.truthAll_concat_and v before (.nested group)
  rw [Condition.truth] at hafter
  have hbefore : Condition.EarlierAlternative v before → Condition.truthAll v before = .true :=
    Condition.truthAll_of_earlierAlternative v
  unfold Narrows
  rw [hafter]
  constructor
  · intro hnarrows halternative
    exact (hnarrows.1 (.inl halternative)).2
  · intro hgroup
    constructor
    · rintro (halternative | hboth)
      · exact ⟨hbefore halternative, hgroup halternative⟩
      · exact hboth
    · exact .inr

/-- Without an OR there is no alternative. -/
theorem not_earlierAlternative (v : Atom → Truth) {conditions : List (Connector × Condition)}
    (h : ∀ p ∈ conditions.tail, p.1 = .and) : ¬Condition.EarlierAlternative v conditions := by
  rintro ⟨earlier, c, later, rfl, hsome, -⟩
  obtain ⟨p, earlier, rfl⟩ := List.exists_cons_of_ne_nil hsome
  have hand : Connector.or = .and := h (.or, c) (by simp)
  cases hand

theorem Plain.apply_group (h : f.Plain) (hsome : f.comparisons ≠ []) (q : Query) :
    ∃ q' group, f.apply q = .ok q' ∧
      q'.wheres.conditions = q.wheres.conditions ++ [(.and, .nested group)] ∧
      ∀ v, Condition.truthAll v group = f.truth v := by
  obtain ⟨q', hq', ⟨hnone, -⟩ | ⟨-, group, hgroup, htruth⟩⟩ := h.apply_conditions q
  · exact absurd hnone hsome
  · exact ⟨q', group, hq', hgroup, htruth⟩

/-- A filter restricts a query whose conditions are all joined by AND. -/
theorem apply_narrows_of_and (h : f.Plain) (hsome : f.comparisons ≠ []) (q : Query)
    (hand : ∀ p ∈ q.wheres.conditions.tail, p.1 = .and) :
    ∃ q', f.apply q = .ok q' ∧ ∀ v,
      (Condition.truthAll v q'.wheres.conditions = .true ↔
        Condition.truthAll v q.wheres.conditions = .true ∧ f.truth v = .true) := by
  obtain ⟨q', group, hq', hgroup, htruth⟩ := h.apply_group hsome q
  refine ⟨q', hq', ?_⟩
  intro v
  have hnarrows := (narrows_concat_iff v q.wheres.conditions group).2
    fun halternative => absurd halternative (not_earlierAlternative v hand)
  rw [hgroup, ← htruth]
  exact hnarrows

/-- A filter restricts a query exactly where no earlier alternative is true without it. -/
theorem apply_narrows_iff (h : f.Plain) (hsome : f.comparisons ≠ []) (q : Query) :
    ∃ q' group, f.apply q = .ok q' ∧
      q'.wheres.conditions = q.wheres.conditions ++ [(.and, .nested group)] ∧
      ∀ v, Condition.truthAll v group = f.truth v ∧
        (Narrows v q.wheres.conditions q'.wheres.conditions group ↔
          (Condition.EarlierAlternative v q.wheres.conditions →
            Condition.truthAll v group = .true)) := by
  obtain ⟨q', group, hq', hgroup, htruth⟩ := h.apply_group hsome q
  refine ⟨q', group, hq', hgroup, fun v => ⟨htruth v, ?_⟩⟩
  rw [hgroup]
  exact narrows_concat_iff v q.wheres.conditions group

def eitherValue : Query :=
  { Query.ofTable "t" with
    wheres := (WhereGroup.empty.compare .and "x" "=" (.int 1)).compare .or "y" "=" (.int 2) }

def onlyFirst : Atom → Truth
  | .compare column _ _ => if column = "x" then .true else .false
  | _ => .false

theorem apply_narrows_iff_eitherValue :
    ∃ q' group, (overField plainField "a=1").apply eitherValue = .ok q' ∧
      Condition.truthAll onlyFirst group = (overField plainField "a=1").truth onlyFirst ∧
      ¬Narrows onlyFirst eitherValue.wheres.conditions q'.wheres.conditions group := by
  have hplain : (overField plainField "a=1").Plain := plain_overField (n := 1) (by decide +kernel)
  have hsome : (overField plainField "a=1").comparisons ≠ [] := by decide +kernel
  obtain ⟨q', group, hq', hgroup, hexact⟩ := apply_narrows_iff hplain hsome eitherValue
  obtain ⟨htruth, hnarrows⟩ := hexact onlyFirst
  refine ⟨q', group, hq', htruth, ?_⟩
  rw [hnarrows, htruth]
  intro hgroup
  have halternative : Condition.EarlierAlternative onlyFirst eitherValue.wheres.conditions :=
    ⟨[(.and, .compare "x" "=" (.int 1))], .compare "y" "=" (.int 2), [], rfl, by simp, rfl⟩
  have hfalse : (overField plainField "a=1").truth onlyFirst = .false := by decide +kernel
  rw [hfalse] at hgroup
  cases hgroup halternative

end Sift.Filter

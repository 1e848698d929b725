import Sift.Proofs.Emission
import Sift.Proofs.Truth

/-!
# The truth of filters

A tree of comparisons has a truth of its own: each group combines its members by its
connector, and members without any comparison do not count. The conditions that are
emitted for a tree have that truth when they are read by precedence, so a query has the
truth of all the filters that were applied to it.

`truth` is the truth of a filter, and `Adds` says that what an emission has added has the
truths of the trees. A filter is `Plain` if it is accepted and has operators of SQL and table
joins only.
-/

namespace Sift

def Atom.ofComparison (column operator : String) (value : Literal) : Atom :=
  if value.isNull && operator = "=" then .isNull column false
  else if value.isNull && (operator = "!=" || operator = "<>") then .isNull column true
  else .compare column operator value

namespace Expr

variable (leaf : Comparison → Truth)

mutual

def truth : Expr → Truth
  | .comparison c => leaf c
  | .group k members => k.combine (truths members)

def truths : List Expr → List Truth
  | [] => []
  | e :: es => if e.leaves = [] then truths es else truth e :: truths es

end

end Expr

namespace Filter

/-- The truth of the atomic condition that an accepted comparison stands for: that of its
column, the operator of SQL and the value as the field takes it. -/
def leafTruth (f : Filter) (v : Atom → Truth) (c : Comparison) : Truth :=
  match f.resolve c with
  | .ok ⟨field, .fixed sql, value⟩ => v (.ofComparison field.columnName sql value)
  | _ => .unknown

def comparisons (f : Filter) : List Comparison :=
  match f.parse with
  | .ok (some e) => e.leaves
  | _ => []

/-- The truth of the tree; a tree without any comparison does not restrict. -/
def truth (f : Filter) (v : Atom → Truth) : Truth :=
  match f.parse with
  | .ok (some e) => if e.leaves = [] then .true else e.truth (f.leafTruth v)
  | _ => .true

theorem compare_conditions (g : WhereGroup) (k : Connector) (column operator : String)
    (value : Literal) :
    ∃ c, (g.compare k column operator value).conditions = g.conditions ++ [(k, c)] ∧
      ∀ v, Condition.truth v c = v (.ofComparison column operator value) := by
  refine ⟨_, rfl, ?_⟩
  intro v
  unfold Atom.ofComparison
  split
  · rfl
  · split <;> rfl

theorem condition_conditions {f : Filter} {c : Comparison} {r : Resolved}
    (h : f.resolve c = .ok r) (hfixed : ∃ sql, r.operator = .fixed sql) (g : WhereGroup)
    (k : Connector) :
    ∃ d, (condition r k g).conditions = g.conditions ++ [(k, d)] ∧
      ∀ v, Condition.truth v d = f.leafTruth v c := by
  obtain ⟨sql, hsql⟩ := hfixed
  obtain ⟨d, hd, htruth⟩ := compare_conditions g k r.field.columnName sql r.value
  refine ⟨d, by rw [condition, hsql]; exact hd, ?_⟩
  intro v
  obtain ⟨field, operator, value⟩ := r
  subst hsql
  rw [htruth, leafTruth, h]

end Filter

namespace Expr

theorem truths_cons (leaf : Comparison → Truth) (e : Expr) (es : List Expr) :
    truths leaf (e :: es) = truths leaf [e] ++ truths leaf es := by
  by_cases h : e.leaves = []
  · simp [truths, h]
  · simp [truths, h]

theorem truths_eq_nil_iff (leaf : Comparison → Truth) (es : List Expr) :
    truths leaf es = [] ↔ leavesAll es = [] := by
  induction es with
  | nil => simp [truths, leavesAll]
  | cons e es ih =>
    by_cases h : e.leaves = []
    · simp [truths, leavesAll, h, ih]
    · simp [truths, leavesAll, h]

end Expr

namespace Filter

def Adds (f : Filter) (k : Connector) (out next : Emission) (es : List Expr) : Prop :=
  ∃ cs : List Condition, next.conditions.conditions = out.conditions.conditions ++ cs.map (k, ·) ∧
    ∀ v, cs.map (Condition.truth v) = Expr.truths (f.leafTruth v) es

theorem Adds.trans {f : Filter} {k : Connector} {out next last : Emission} {e : Expr}
    {es : List Expr} (h : f.Adds k out next [e]) (h' : f.Adds k next last es) :
    f.Adds k out last (e :: es) := by
  obtain ⟨cs, hcs, htruths⟩ := h
  obtain ⟨ds, hds, htruths'⟩ := h'
  refine ⟨cs ++ ds, by simp [hds, hcs], ?_⟩
  intro v
  rw [List.map_append, htruths, htruths', ← Expr.truths_cons]

/-- A subgroup becomes one nested condition, or nothing if it has no comparison. -/
theorem adds_nested {f : Filter} {inner : Connector} {joined : List Field} {sub : Emission}
    {members : List Expr} (h : f.Adds inner ⟨.empty, joined⟩ sub members) (k : Connector)
    (out : Emission) :
    f.Adds k out ⟨out.conditions.nested k sub.conditions, sub.joined⟩
      [.group inner members] := by
  obtain ⟨cs, hcs, htruths⟩ := h
  have hconditions : sub.conditions.conditions = cs.map (inner, ·) := hcs
  by_cases hnil : Expr.leavesAll members = []
  · have hempty : cs = [] := by
      have htruth := htruths fun _ => .true
      rw [(Expr.truths_eq_nil_iff _ members).2 hnil] at htruth
      exact List.map_eq_nil_iff.1 htruth
    refine ⟨[], ?_, fun v => ?_⟩
    · simp [WhereGroup.nested, WhereGroup.isEmpty, hconditions, hempty]
    · simp [Expr.truths, Expr.leaves, hnil]
  · have hsome : cs ≠ [] := by
      rintro rfl
      exact hnil ((Expr.truths_eq_nil_iff _ members).1 (htruths fun _ => .true).symm)
    refine ⟨[.nested (cs.map (inner, ·))], ?_, fun v => ?_⟩
    · simp [WhereGroup.nested, WhereGroup.isEmpty, WhereGroup.push, hconditions, hsome]
    · simp [Expr.truths, Expr.leaves, hnil, Expr.truth, Condition.truth,
        Condition.truthAll_map v inner cs hsome, htruths]

mutual

theorem adds_emit {f : Filter} {k : Connector} {out next : Emission} : (e : Expr) →
    f.FixedOperators e.leaves → f.emit k out e = .ok next → f.Adds k out next [e]
  | .comparison c, hfixed, h => by
    obtain ⟨r, hr, rfl⟩ := emit_comparison_eq_ok_iff.1 h
    obtain ⟨-, -, hregistered, -⟩ := resolve_eq_ok_iff.1 hr
    have hoperator := hfixed c (by simp [Expr.leaves]) _ hregistered
    obtain ⟨d, hd, htruth⟩ := condition_conditions hr hoperator out.conditions k
    refine ⟨[d], by simpa using hd, ?_⟩
    intro v
    simp [htruth, Expr.truths, Expr.truth, Expr.leaves]
  | .group inner members, hfixed, h => by
    obtain ⟨sub, hsub, rfl⟩ := emit_group_eq_ok_iff.1 h
    exact adds_nested (adds_emitAll members hfixed hsub) k out

theorem adds_emitAll {f : Filter} {k : Connector} {out next : Emission} : (es : List Expr) →
    f.FixedOperators (Expr.leavesAll es) → f.emitAll k out es = .ok next →
    f.Adds k out next es
  | [], _, h => by
    cases h
    exact ⟨[], by simp, fun v => by simp [Expr.truths]⟩
  | e :: es, hfixed, h => by
    obtain ⟨middle, hmiddle, hrest⟩ := emitAll_cons_eq_ok_iff.1 h
    obtain ⟨hhead, htail⟩ := Expr.forall_mem_leavesAll_cons.1 hfixed
    exact (adds_emit e hhead hmiddle).trans (adds_emitAll es htail hrest)

end

/-- What is emitted for an accepted tree has its truth, and there is nothing only if the
tree has no comparison. -/
theorem emission_truth {f : Filter} {e : Expr} {out : Emission}
    (hfixed : f.FixedOperators e.leaves) (h : f.emission e = .ok out) :
    (out.conditions.conditions = [] ↔ e.leaves = []) ∧
      (e.leaves ≠ [] → ∀ v, Condition.truthAll v out.conditions.conditions =
        e.truth (f.leafTruth v)) := by
  cases e with
  | comparison c =>
    obtain ⟨cs, hcs, htruths⟩ := adds_emit (.comparison c) hfixed h
    have hconditions : out.conditions.conditions = cs.map (.and, ·) := hcs
    have hsingle (v : Atom → Truth) : cs.map (Condition.truth v) = [f.leafTruth v c] := by
      rw [htruths]
      simp [Expr.truths, Expr.truth, Expr.leaves]
    have hsome : cs ≠ [] := by
      rintro rfl
      exact absurd (hsingle fun _ => .true) (by simp)
    refine ⟨by simp [hconditions, hsome, Expr.leaves], ?_⟩
    intro _ v
    rw [hconditions, Condition.truthAll_map v .and cs hsome, hsingle]
    simp [Connector.combine, Expr.truth]
  | group k members =>
    obtain ⟨cs, hcs, htruths⟩ := adds_emitAll members hfixed h
    have hconditions : out.conditions.conditions = cs.map (k, ·) := hcs
    have hempty : cs = [] ↔ Expr.leavesAll members = [] := by
      rw [← Expr.truths_eq_nil_iff (f.leafTruth fun _ => .true), ← htruths, List.map_eq_nil_iff]
    refine ⟨by simp [hconditions, hempty, Expr.leaves], ?_⟩
    intro hleaves v
    have hsome : cs ≠ [] := mt hempty.1 hleaves
    rw [hconditions, Condition.truthAll_map v k cs hsome, htruths, Expr.truth]

theorem truth_of_comparisons_eq_nil (f : Filter) (h : f.comparisons = []) (v : Atom → Truth) :
    f.truth v = .true := by
  unfold comparisons at h
  unfold truth
  split at h
  · simp [h]
  · rfl

structure Plain (f : Filter) : Prop where
  accepted : f.Accepted
  fixed : f.FixedOperators f.comparisons
  tables : f.TableJoins f.comparisons

/-- A filter adds one group that has its truth, or nothing if it has no comparison. -/
theorem Plain.apply_conditions {f : Filter} (h : f.Plain) (q : Query) :
    ∃ q', f.apply q = .ok q' ∧
      ((f.comparisons = [] ∧ q'.wheres = q.wheres) ∨
        (f.comparisons ≠ [] ∧ ∃ group,
          q'.wheres.conditions = q.wheres.conditions ++ [(.and, .nested group)] ∧
            ∀ v, Condition.truthAll v group = f.truth v)) := by
  rcases accepted_cases h.accepted with ⟨hparse, happly⟩ | ⟨e, out, hparse, hout, happly⟩
  · exact ⟨q, happly q, .inl ⟨by simp [comparisons, hparse], rfl⟩⟩
  · have hleaves : f.comparisons = e.leaves := by simp [comparisons, hparse]
    obtain ⟨hempty, htruth⟩ := emission_truth (hleaves ▸ h.fixed) hout
    have hwheres := addTo_wheres out q fun field hfield join =>
      table_of_mem_joined hout (hleaves ▸ h.tables) hfield
    refine ⟨_, happly q, ?_⟩
    by_cases hnil : e.leaves = []
    · have hnone : out.conditions.isEmpty := by simp [WhereGroup.isEmpty, hempty.2 hnil]
      exact .inl ⟨hleaves.trans hnil, by simp [hwheres, WhereGroup.nested, hnone]⟩
    · have hsome : ¬out.conditions.isEmpty := by simpa [WhereGroup.isEmpty, hempty] using hnil
      refine .inr ⟨hleaves ▸ hnil, out.conditions.conditions, ?_, fun v => ?_⟩
      · simp [hwheres, WhereGroup.nested, WhereGroup.push, hsome]
      · rw [htruth hnil, Filter.truth, hparse]
        simp [hnil]

end Filter

def Query.HasWhere (q : Query) : Prop := q.sql ≠ { q with wheres := .empty }.sql

theorem Query.hasWhere_iff (q : Query) : q.HasWhere ↔ q.wheres.conditions ≠ [] := by
  have hkeyword : " where ".toList ≠ [] := by decide
  have htext : q.sqlChars = { q with wheres := .empty }.sqlChars ↔ q.wheres.conditions = [] := by
    unfold sqlChars
    generalize " where ".toList = keyword at hkeyword
    rw [List.append_right_inj]
    cases hconditions : q.wheres.conditions with
    | nil => simp [WhereGroup.isEmpty, WhereGroup.empty, hconditions]
    | cons c cs => simp [WhereGroup.isEmpty, WhereGroup.empty, hconditions, hkeyword]
  exact not_congr (String.ofList_inj.trans htext)

namespace Filter

def applyAll (fs : List Filter) (q : Query) : Except Error Query :=
  fs.foldlM (fun q f => f.apply q) q

theorem applyAll_conditions (fs : List Filter) (h : ∀ f ∈ fs, f.Plain) (q : Query) :
    ∃ q' cs, applyAll fs q = .ok q' ∧
      q'.wheres.conditions = q.wheres.conditions ++ cs.map (.and, ·) ∧
      (cs = [] ↔ ∀ f ∈ fs, f.comparisons = []) ∧
      ∀ v, Connector.combine .and (cs.map (Condition.truth v)) =
        Connector.combine .and (fs.map (·.truth v)) := by
  induction fs generalizing q with
  | nil =>
    refine ⟨q, [], rfl, by simp, by simp, ?_⟩
    intro v
    rw [List.map_nil, List.map_nil]
  | cons f fs ih =>
    obtain ⟨middle, hmiddle, hstep⟩ := (h f List.mem_cons_self).apply_conditions q
    obtain ⟨last, cs, hlast, hcs, hempty, htruth⟩ :=
      ih (fun g hg => h g (List.mem_cons_of_mem f hg)) middle
    have hrun : applyAll (f :: fs) q = .ok last := by
      simp only [applyAll, List.foldlM_cons, hmiddle] at hlast ⊢
      exact hlast
    rcases hstep with ⟨hnone, hkept⟩ | ⟨hsome, group, hadded, hgroup⟩
    · refine ⟨last, cs, hrun, by rw [hcs, hkept], by simp [hempty, hnone], ?_⟩
      intro v
      rw [htruth, List.map_cons, f.truth_of_comparisons_eq_nil hnone]
      rfl
    · refine ⟨last, .nested group :: cs, hrun, by simp [hcs, hadded], by simp [hsome], ?_⟩
      intro v
      simp only [List.map_cons, Condition.truth, hgroup]
      exact congrArg (Truth.and _) (htruth v)

theorem applyAll_truth (table : String) (fs : List Filter) (h : ∀ f ∈ fs, f.Plain) :
    ∃ q, applyAll fs (.ofTable table) = .ok q ∧
      (∀ v, Condition.truthAll v q.wheres.conditions =
        Connector.combine .and (fs.map (·.truth v))) ∧
      (q.HasWhere ↔ ∃ f ∈ fs, f.comparisons ≠ []) := by
  obtain ⟨q, cs, hq, hcs, hempty, htruth⟩ := applyAll_conditions fs h (.ofTable table)
  have hconditions : q.wheres.conditions = cs.map (.and, ·) := hcs
  refine ⟨q, hq, fun v => ?_, ?_⟩
  · rw [hconditions, Condition.truthAll_map_and, htruth]
  · rw [Query.hasWhere_iff, hconditions, ne_eq, List.map_eq_nil_iff, hempty]
    simp

theorem plain_overField {expression : String} {n : Nat}
    (h : (overField plainField expression).check.toOption = some n) :
    (overField plainField expression).Plain :=
  ⟨accepted_overField h, fixedOperators_of_default rfl _, tableJoins_overField rfl _ _⟩

theorem applyAll_truth_overField :
    ∃ q, applyAll [overField plainField "a=1|a=2", overField plainField "(a<9&())"]
        (.ofTable "t") = .ok q ∧
      (∀ v, Condition.truthAll v q.wheres.conditions =
        ((overField plainField "a=1|a=2").truth v).and
          ((overField plainField "(a<9&())").truth v)) ∧
      q.HasWhere := by
  have hplain : ∀ f ∈ [overField plainField "a=1|a=2", overField plainField "(a<9&())"],
      f.Plain := by
    intro f hf
    simp only [List.mem_cons, List.not_mem_nil, or_false] at hf
    rcases hf with rfl | rfl
    · exact plain_overField (n := 2) (by decide +kernel)
    · exact plain_overField (n := 1) (by decide +kernel)
  obtain ⟨q, hq, htruth, hwhere⟩ := applyAll_truth "t" _ hplain
  refine ⟨q, hq, fun v => ?_, hwhere.2 ⟨_, List.mem_cons_self, ?_⟩⟩
  · rw [htruth]
    simp [Connector.combine]
  · decide +kernel

end Filter

end Sift

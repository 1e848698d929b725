import Sift.Proofs.Emission
import Sift.Proofs.TypeUnions
import Sift.Query.Printer

/-!
# Values and the text of a query

Two expressions of the same shape compare the same fields by the same operators, and a value
is null in the one where it is null in the other. A filter puts the same text of SQL into a
query for both, and as many bindings, whatever the other values are.

`SameShape` are the expressions, and `Alike` the groups of conditions that differ at most in
the values that are compared.
-/

namespace Sift

namespace Expr

mutual

/-- The expressions differ at most in values that are not null. -/
inductive SameShape : Expr → Expr → Prop
  | comparison {c d : Comparison} (hfield : c.field = d.field)
      (hoperator : c.operator = d.operator) (hnull : c.value = .null ↔ d.value = .null) :
      SameShape (.comparison c) (.comparison d)
  | group (k : Connector) {members members' : List Expr} (h : SameShapeAll members members') :
      SameShape (.group k members) (.group k members')

inductive SameShapeAll : List Expr → List Expr → Prop
  | nil : SameShapeAll [] []
  | cons {d e : Expr} {ds es : List Expr} (h : SameShape d e) (hs : SameShapeAll ds es) :
      SameShapeAll (d :: ds) (e :: es)

end

mutual

theorem SameShape.fields {d e : Expr} :
    SameShape d e → d.leaves.map (·.field) = e.leaves.map (·.field)
  | .comparison hfield _ _ => by rw [leaves, leaves, List.map_singleton, List.map_singleton, hfield]
  | .group _ h => h.fields

theorem SameShapeAll.fields {ds es : List Expr} :
    SameShapeAll ds es → (leavesAll ds).map (·.field) = (leavesAll es).map (·.field)
  | .nil => rfl
  | .cons h hs => by
    rw [leavesAll, leavesAll, List.map_append, List.map_append, h.fields, hs.fields]

end

end Expr

namespace Condition

mutual

/-- The condition with null in the place of the value that it compares. -/
def withoutValue : Condition → Condition
  | .compare column operator _ => .compare column operator .null
  | .isNull column negated => .isNull column negated
  | .raw text values => .raw text values
  | .nested conditions => .nested (withoutValues conditions)

def withoutValues : List (Connector × Condition) → List (Connector × Condition)
  | [] => []
  | (k, c) :: cs => (k, withoutValue c) :: withoutValues cs

end

mutual

theorem sql_withoutValue : (c : Condition) → (withoutValue c).sql = c.sql
  | .compare _ _ _ => rfl
  | .isNull _ _ => rfl
  | .raw _ _ => rfl
  | .nested conditions => by rw [withoutValue, sql, sqlAll_withoutValues conditions, sql]

theorem sqlAll_withoutValues : (cs : List (Connector × Condition)) →
    sqlAll (withoutValues cs) = sqlAll cs
  | [] => rfl
  | (_, c) :: cs => by
    rw [withoutValues, sqlAll, sql_withoutValue c, sqlRest_withoutValues cs, sqlAll]

theorem sqlRest_withoutValues : (cs : List (Connector × Condition)) →
    sqlRest (withoutValues cs) = sqlRest cs
  | [] => rfl
  | (_, c) :: cs => by
    rw [withoutValues, sqlRest, sql_withoutValue c, sqlRest_withoutValues cs, sqlRest]

end

mutual

theorem length_bindings_withoutValue : (c : Condition) →
    (withoutValue c).bindings.length = c.bindings.length
  | .compare _ _ _ => rfl
  | .isNull _ _ => rfl
  | .raw _ _ => rfl
  | .nested conditions => length_bindingsAll_withoutValues conditions

theorem length_bindingsAll_withoutValues : (cs : List (Connector × Condition)) →
    (bindingsAll (withoutValues cs)).length = (bindingsAll cs).length
  | [] => rfl
  | (_, c) :: cs => by
    rw [withoutValues, bindingsAll, bindingsAll, List.length_append, List.length_append,
      length_bindings_withoutValue c, length_bindingsAll_withoutValues cs]

end

theorem withoutValues_append (cs ds : List (Connector × Condition)) :
    withoutValues (cs ++ ds) = withoutValues cs ++ withoutValues ds := by
  induction cs with
  | nil => rfl
  | cons p cs ih =>
    obtain ⟨k, c⟩ := p
    rw [List.cons_append, withoutValues, ih, withoutValues, List.cons_append]

theorem withoutValues_eq_nil_iff (cs : List (Connector × Condition)) :
    withoutValues cs = [] ↔ cs = [] := by
  cases cs with
  | nil => simp [withoutValues]
  | cons p cs => simp [withoutValues]

end Condition

open Condition

namespace WhereGroup

variable {g h : WhereGroup}

def Alike (g h : WhereGroup) : Prop := withoutValues g.conditions = withoutValues h.conditions

theorem Alike.isEmpty (hgroups : g.Alike h) : g.isEmpty = h.isEmpty := by
  have hnil : g.conditions = [] ↔ h.conditions = [] := by
    rw [← withoutValues_eq_nil_iff, hgroups, withoutValues_eq_nil_iff]
  rw [WhereGroup.isEmpty, WhereGroup.isEmpty, Bool.eq_iff_iff, List.isEmpty_iff, List.isEmpty_iff,
    hnil]

theorem Alike.push (hgroups : g.Alike h) {c d : Condition}
    (hconditions : withoutValue c = withoutValue d) (k : Connector) :
    (g.push k c).Alike (h.push k d) := by
  rw [Alike, WhereGroup.push, WhereGroup.push, withoutValues_append, withoutValues_append, hgroups]
  simp only [withoutValues, hconditions]

theorem Alike.compare (hgroups : g.Alike h) {v w : Literal} (hnull : v.isNull = w.isNull)
    (k : Connector) (column operator : String) :
    (g.compare k column operator v).Alike (h.compare k column operator w) := by
  refine hgroups.push ?_ k
  rw [hnull]
  split
  · rfl
  · split
    · rfl
    · rfl

theorem Alike.nested (hgroups : g.Alike h) {sub sub' : WhereGroup} (hsub : sub.Alike sub')
    (k : Connector) : (g.nested k sub).Alike (h.nested k sub') := by
  rw [WhereGroup.nested, WhereGroup.nested, hsub.isEmpty]
  split
  · exact hgroups
  · exact hgroups.push (by rw [withoutValue, withoutValue, hsub]) k

end WhereGroup

theorem Query.sql_eq_of_alike {q r : Query} (htable : q.table = r.table)
    (hjoins : q.joins = r.joins) (hwheres : q.wheres.Alike r.wheres) :
    q.sql = r.sql ∧ q.bindings.length = r.bindings.length := by
  have hconditions : sqlAll q.wheres.conditions = sqlAll r.wheres.conditions := by
    rw [← sqlAll_withoutValues q.wheres.conditions, hwheres, sqlAll_withoutValues]
  constructor
  · unfold Query.sql Query.sqlChars
    -- the keyword stays closed, or rewriting runs through its characters
    generalize " where ".toList = keyword
    rw [htable, hjoins, hwheres.isEmpty, hconditions]
  · rw [Query.bindings, Query.bindings, ← length_bindingsAll_withoutValues q.wheres.conditions,
      hwheres, length_bindingsAll_withoutValues]

namespace Filter

variable {f g : Filter}

/-- Comparisons of the same field by the same operator are resolved alike. -/
theorem resolve_alike (hfields : f.fields = g.fields) (hoperators : f.operators = g.operators)
    {c d : Comparison} (hfield : c.field = d.field) (hoperator : c.operator = d.operator)
    (hnull : c.value = .null ↔ d.value = .null) {r s : Resolved} (hr : f.resolve c = .ok r)
    (hs : g.resolve d = .ok s) :
    r.field = s.field ∧ r.operator = s.operator ∧ r.value.isNull = s.value.isNull := by
  obtain ⟨hrfield, hrvalue, hroperator, -⟩ := resolve_eq_ok_iff.1 hr
  obtain ⟨hsfield, hsvalue, hsoperator, -⟩ := resolve_eq_ok_iff.1 hs
  rw [hfields, hfield, hsfield] at hrfield
  rw [hoperators, hoperator, hsoperator] at hroperator
  refine ⟨(Option.some_inj.1 hrfield).symm, (Option.some_inj.1 hroperator).symm, ?_⟩
  rw [Constraint.isNull_of_validate hrvalue, Constraint.isNull_of_validate hsvalue,
    Bool.eq_iff_iff, Literal.isNull_iff, Literal.isNull_iff, hnull]

mutual

theorem emit_alike (hfields : f.fields = g.fields) (hoperators : f.operators = g.operators)
    {k : Connector} {out out' next next' : Emission} {d e : Expr} :
    d.SameShape e → f.FixedOperators d.leaves → out.conditions.Alike out'.conditions →
      f.emit k out d = .ok next → g.emit k out' e = .ok next' →
      next.conditions.Alike next'.conditions
  | .comparison hfield hoperator hnull, hfixed, hout, hnext, hnext' => by
    obtain ⟨r, hr, rfl⟩ := emit_comparison_eq_ok_iff.1 hnext
    obtain ⟨s, hs, rfl⟩ := emit_comparison_eq_ok_iff.1 hnext'
    obtain ⟨hsame, hsameOperator, hsameNull⟩ :=
      resolve_alike hfields hoperators hfield hoperator hnull hr hs
    obtain ⟨-, -, hregistered, -⟩ := resolve_eq_ok_iff.1 hr
    obtain ⟨sql, hsql⟩ := hfixed _ (by simp [Expr.leaves]) _ hregistered
    simp only [condition, ← hsame, ← hsameOperator, hsql]
    exact hout.compare hsameNull k _ _
  | .group inner h, hfixed, hout, hnext, hnext' => by
    obtain ⟨sub, hsub, rfl⟩ := emit_group_eq_ok_iff.1 hnext
    obtain ⟨sub', hsub', rfl⟩ := emit_group_eq_ok_iff.1 hnext'
    have hempty : WhereGroup.empty.Alike .empty := rfl
    exact hout.nested (emitAll_alike hfields hoperators h hfixed hempty hsub hsub') k

theorem emitAll_alike (hfields : f.fields = g.fields) (hoperators : f.operators = g.operators)
    {k : Connector} {out out' next next' : Emission} {ds es : List Expr} :
    Expr.SameShapeAll ds es → f.FixedOperators (Expr.leavesAll ds) →
      out.conditions.Alike out'.conditions →
      f.emitAll k out ds = .ok next → g.emitAll k out' es = .ok next' →
      next.conditions.Alike next'.conditions
  | .nil, _, hout, hnext, hnext' => by
    cases hnext
    cases hnext'
    exact hout
  | .cons h hs, hfixed, hout, hnext, hnext' => by
    obtain ⟨middle, hmiddle, hrest⟩ := emitAll_cons_eq_ok_iff.1 hnext
    obtain ⟨middle', hmiddle', hrest'⟩ := emitAll_cons_eq_ok_iff.1 hnext'
    obtain ⟨hhead, htail⟩ := Expr.forall_mem_leavesAll_cons.1 hfixed
    have hout' := emit_alike hfields hoperators h hhead hout hmiddle hmiddle'
    exact emitAll_alike hfields hoperators hs htail hout' hrest hrest'

end

theorem emission_alike (hfields : f.fields = g.fields) (hoperators : f.operators = g.operators)
    {d e : Expr} (h : d.SameShape e) (hfixed : f.FixedOperators d.leaves) {out out' : Emission}
    (hout : f.emission d = .ok out) (hout' : g.emission e = .ok out') :
    out.joined = out'.joined ∧ out.conditions.Alike out'.conditions := by
  constructor
  · have hused : f.usedFields d.leaves = g.usedFields e.leaves := by
      have hmap (r : FieldRegistry) (cs : List Comparison) :
          cs.filterMap (fun c => r.get? c.field) = (cs.map (·.field)).filterMap r.get? := by
        rw [List.filterMap_map]; rfl
      rw [usedFields, usedFields, hmap, hmap, h.fields, hfields]
    rw [emission_joined hout, emission_joined hout', hused]
  · cases h with
    | comparison hfield hoperator hnull =>
      exact emit_alike hfields hoperators (.comparison hfield hoperator hnull) hfixed rfl hout hout'
    | group k h => exact emitAll_alike hfields hoperators h hfixed rfl hout hout'

/-- Two filters with the same fields and operators, whose expressions differ at most in
values that are not null, give a query the same text and as many bindings. -/
theorem sql_eq_of_sameShape (hfields : f.fields = g.fields) (hoperators : f.operators = g.operators)
    (hfixed : ∀ symbol o, f.operators.get? symbol = some o → ∃ sql, o = .fixed sql) {d e : Expr}
    (hd : f.parse = .ok (some d)) (he : g.parse = .ok (some e)) (hshape : d.SameShape e)
    (hf : f.Accepted) (hg : g.Accepted) (q : Query) :
    ∃ q' r', f.apply q = .ok q' ∧ g.apply q = .ok r' ∧ q'.sql = r'.sql ∧
      q'.bindings.length = r'.bindings.length := by
  obtain ⟨hnone, -⟩ | ⟨d', out, hd', hout, hq'⟩ := accepted_cases hf
  · cases hd.symm.trans hnone
  obtain ⟨hnone, -⟩ | ⟨e', out', he', hout', hr'⟩ := accepted_cases hg
  · cases he.symm.trans hnone
  obtain rfl : d = d' := by simpa using hd.symm.trans hd'
  obtain rfl : e = e' := by simpa using he.symm.trans he'
  have hleaves : f.FixedOperators d.leaves := fun c _ => hfixed c.operator
  obtain ⟨hjoined, hconditions⟩ := emission_alike hfields hoperators hshape hleaves hout hout'
  refine ⟨_, _, hq' q, hr' q, ?_⟩
  obtain ⟨conditions, joined⟩ := out
  obtain ⟨conditions', joined'⟩ := out'
  obtain rfl : joined = joined' := hjoined
  have hsame (w : WhereGroup) : w.Alike w := rfl
  exact Query.sql_eq_of_alike rfl rfl ((hsame _).nested hconditions .and)

def dateField : Field := (plainField.withColumn "t.day").withTypes [.date, .null]

def atDay (f : Filter) : Filter := { f with now := ⟨86400, 0, by decide, by decide, by decide⟩ }

def before (day : String) : Expr :=
  .group .or [.comparison ⟨"a", "<", .string day⟩, .group .and [.comparison ⟨"a", "!=", .null⟩]]

theorem sql_eq_of_sameShape_dateField : ∃ q' r',
    (overField dateField "a<'2024-03-01'|(a!=null)").apply (.ofTable "t") = .ok q' ∧
      (overField dateField "a<'yesterday'|(a!=null)").atDay.apply (.ofTable "t") = .ok r' ∧
      q'.sql = r'.sql ∧ q'.bindings.length = r'.bindings.length := by
  have hd : (overField dateField "a<'2024-03-01'|(a!=null)").parse =
      .ok (some (before "2024-03-01")) := eq_ok_of_toOption (by decide +kernel)
  have he : (overField dateField "a<'yesterday'|(a!=null)").atDay.parse =
      .ok (some (before "yesterday")) := eq_ok_of_toOption (by decide +kernel)
  have hshape : (before "2024-03-01").SameShape (before "yesterday") :=
    .group .or (.cons (.comparison rfl rfl (by decide))
      (.cons (.group .and (.cons (.comparison rfl rfl Iff.rfl) .nil)) .nil))
  have hf : (overField dateField "a<'2024-03-01'|(a!=null)").check = .ok 2 :=
    eq_ok_of_toOption (by decide +kernel)
  have hg : (overField dateField "a<'yesterday'|(a!=null)").atDay.check = .ok 2 :=
    eq_ok_of_toOption (by decide +kernel)
  have hfields : (overField dateField "a<'2024-03-01'|(a!=null)").fields =
      (overField dateField "a<'yesterday'|(a!=null)").atDay.fields := rfl
  refine sql_eq_of_sameShape hfields rfl ?_ hd he hshape ⟨2, hf⟩ ⟨2, hg⟩ _
  exact fun symbol _ ho => ⟨symbol, OperatorRegistry.get?_default ho⟩

end Filter

end Sift

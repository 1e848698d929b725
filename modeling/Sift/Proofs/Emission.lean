import Sift.Filter

/-!
# What a filter puts into a query

The fields with joins are collected in the order of the comparisons, whatever the nesting,
and the conditions go to the end of those that the query has. Joins of tables leave the
conditions of the query alone, and joins of the caller's own need not.

`usedFields` are the registered fields of the comparisons, `recordJoins` collects those with
joins, and `applyJoins` puts the joins into a query. With `FixedOperators` and `TableJoins`
nothing comes from handlers or joins of the caller's own.
-/

namespace Sift

/-- What a group is in the list of conditions around it: one entry, or none if it is empty. -/
def WhereGroup.entry (g : WhereGroup) : List (Connector × Condition) :=
  if g.conditions.isEmpty then [] else [(.and, .nested g.conditions)]

theorem WhereGroup.nested_and (g sub : WhereGroup) :
    g.nested .and sub = ⟨g.conditions ++ sub.entry⟩ := by
  unfold nested entry isEmpty
  split
  · rw [List.append_nil]
  · rfl

namespace Filter

variable {f : Filter}

/-- None of the comparisons uses an operator with a handler of the caller's own. -/
def FixedOperators (f : Filter) (cs : List Comparison) : Prop :=
  ∀ c ∈ cs, ∀ o, f.operators.get? c.operator = some o → ∃ sql, o = .fixed sql

def TableJoins (f : Filter) (cs : List Comparison) : Prop :=
  ∀ c ∈ cs, ∀ field, f.fields.get? c.field = some field →
    ∀ join, field.join = some join → ∃ table, join = .table table

theorem resolve_eq_ok_iff {c : Comparison} {r : Resolved} : f.resolve c = .ok r ↔
    f.fields.get? c.field = some r.field ∧
      r.field.constraint.validate r.field.name f.now c.value = .ok r.value ∧
      f.operators.get? c.operator = some r.operator ∧ r.field.permits c.operator = true := by
  constructor
  · intro h
    unfold resolve at h
    split at h
    · cases h
    · next field hfield =>
      split at h
      · cases h
      · next value hvalue =>
        split at h
        · cases h
        · next operator hoperator =>
          split at h
          · next hpermits =>
            cases h
            exact ⟨hfield, hvalue, hoperator, hpermits⟩
          · cases h
  · rintro ⟨hfield, hvalue, hoperator, hpermits⟩
    simp [resolve, hfield, hvalue, hoperator, hpermits]

theorem emit_comparison_eq_ok_iff {k : Connector} {out next : Emission} {c : Comparison} :
    f.emit k out (.comparison c) = .ok next ↔ ∃ r, f.resolve c = .ok r ∧
      next = ⟨condition r k out.conditions, recordJoin r.field out.joined⟩ := by
  rw [emit]
  cases f.resolve c with
  | error err => simp
  | ok r => simp [eq_comm]

theorem emit_group_eq_ok_iff {k inner : Connector} {out next : Emission} {members : List Expr} :
    f.emit k out (.group inner members) = .ok next ↔
      ∃ sub, f.emitAll inner ⟨.empty, out.joined⟩ members = .ok sub ∧
        next = ⟨out.conditions.nested k sub.conditions, sub.joined⟩ := by
  rw [emit]
  cases f.emitAll inner ⟨.empty, out.joined⟩ members with
  | error err => simp
  | ok sub => simp [eq_comm]

theorem emitAll_cons_eq_ok_iff {k : Connector} {out last : Emission} {e : Expr}
    {es : List Expr} : f.emitAll k out (e :: es) = .ok last ↔
      ∃ next, f.emit k out e = .ok next ∧ f.emitAll k next es = .ok last := by
  rw [emitAll]
  cases f.emit k out e with
  | error err => simp
  | ok next => simp

def usedFields (f : Filter) (cs : List Comparison) : List Field :=
  cs.filterMap fun c => f.fields.get? c.field

def recordJoins (joined fields : List Field) : List Field :=
  fields.foldl (fun joined field => recordJoin field joined) joined

theorem recordJoins_append (joined fields fields' : List Field) :
    recordJoins joined (fields ++ fields') = recordJoins (recordJoins joined fields) fields' :=
  List.foldl_append

mutual

theorem emit_joined {k : Connector} {out next : Emission} : (e : Expr) →
    f.emit k out e = .ok next →
    next.joined = recordJoins out.joined (f.usedFields e.leaves)
  | .comparison c, h => by
    obtain ⟨r, hr, rfl⟩ := emit_comparison_eq_ok_iff.1 h
    simp [usedFields, Expr.leaves, recordJoins, (resolve_eq_ok_iff.1 hr).1]
  | .group inner members, h => by
    obtain ⟨sub, hsub, rfl⟩ := emit_group_eq_ok_iff.1 h
    have hjoined := emitAll_joined members hsub
    exact hjoined

theorem emitAll_joined {k : Connector} {out next : Emission} : (es : List Expr) →
    f.emitAll k out es = .ok next →
    next.joined = recordJoins out.joined (f.usedFields (Expr.leavesAll es))
  | [], h => by
    cases h
    rfl
  | e :: es, h => by
    obtain ⟨middle, hmiddle, hrest⟩ := emitAll_cons_eq_ok_iff.1 h
    have hhead := emit_joined e hmiddle
    have htail := emitAll_joined es hrest
    rw [htail, hhead, Expr.leavesAll, usedFields, usedFields, usedFields,
      List.filterMap_append, recordJoins_append]

end

theorem emission_joined {e : Expr} {out : Emission} (h : f.emission e = .ok out) :
    out.joined = recordJoins [] (f.usedFields e.leaves) := by
  cases e with
  | comparison c => exact emit_joined (.comparison c) h
  | group connector members => exact emitAll_joined members h

theorem mem_recordJoins {field : Field} {joined fields : List Field}
    (h : field ∈ recordJoins joined fields) : field ∈ joined ∨ field ∈ fields := by
  induction fields generalizing joined with
  | nil => exact .inl h
  | cons first fields ih =>
    have hrecorded : field ∈ recordJoin first joined ∨ field ∈ fields := ih h
    have hfirst : field ∈ recordJoin first joined → field ∈ joined ∨ field = first := by
      intro hmem
      unfold recordJoin at hmem
      split at hmem
      · simpa using hmem
      · exact .inl hmem
    rcases hrecorded with hmem | hmem
    · exact (hfirst hmem).imp_right fun heq => by simp [heq]
    · exact .inr (List.mem_cons_of_mem first hmem)

/-- Every join that is recorded is a table join, if those of the comparisons are. -/
theorem table_of_mem_joined {e : Expr} {out : Emission} (h : f.emission e = .ok out)
    (htables : f.TableJoins e.leaves) {field : Field} (hmem : field ∈ out.joined)
    {join : FieldJoin} (hjoin : field.join = some join) : ∃ table, join = .table table := by
  rw [emission_joined h] at hmem
  have hused : field ∈ f.usedFields e.leaves := by
    simpa using mem_recordJoins hmem
  obtain ⟨c, hc, hfield⟩ := List.mem_filterMap.1 hused
  exact htables c hc field hfield join hjoin

theorem parse_eq_some_iff {e : Expr} : f.parse = .ok (some e) ↔
    Text.trim f.expression.toList ≠ [] ∧ Expr.parse f.options f.expression = .ok e := by
  unfold parse
  by_cases hblank : Text.trim f.expression.toList = []
  · simp [hblank]
  · cases Expr.parse f.options f.expression with
    | error err => simp [hblank]
    | ok other => simp [hblank]

def Accepted (f : Filter) : Prop := ∃ n, f.check = .ok n

theorem compile_eq_none_iff : f.compile = .ok none ↔ f.parse = .ok none := by
  rw [compile]
  rcases f.parse with err | _ | e
  · simp
  · simp
  · cases hout : f.emission e with
    | error err => simp [hout]
    | ok out => simp [hout]

theorem compile_eq_some_iff {e : Expr} {out : Emission} :
    f.compile = .ok (some (e, out)) ↔ f.parse = .ok (some e) ∧ f.emission e = .ok out := by
  rw [compile]
  rcases f.parse with err | _ | d
  · simp
  · simp
  · cases hout : f.emission d with
    | error err =>
      simp only [hout, reduceCtorEq, Except.ok.injEq, Option.some_inj, false_iff, not_and]
      rintro rfl
      simp [hout]
    | ok other =>
      simp only [hout, Except.ok.injEq, Option.some_inj, Prod.mk.injEq]
      refine and_congr_right ?_
      rintro rfl
      simp [hout]

/-- An accepted filter is blank and changes no query, or what its tree emits is added. -/
theorem accepted_cases (h : f.Accepted) :
    (f.parse = .ok none ∧ ∀ q, f.apply q = .ok q) ∨
      ∃ e out, f.parse = .ok (some e) ∧ f.emission e = .ok out ∧
        ∀ q, f.apply q = .ok (Emission.addTo out q) := by
  obtain ⟨n, hcheck⟩ := h
  rcases hcompile : f.compile with err | _ | ⟨e, out⟩
  · simp [check, hcompile] at hcheck
  · exact .inl ⟨compile_eq_none_iff.1 hcompile, fun q => by simp [apply, hcompile]⟩
  · obtain ⟨hparse, hout⟩ := compile_eq_some_iff.1 hcompile
    exact .inr ⟨e, out, hparse, hout, fun q => by simp [apply, hcompile]⟩

theorem apply_eq_error_iff {q : Query} {err : Error} :
    f.apply q = .error err ↔ f.compile = .error err := by
  rw [apply]
  rcases f.compile with other | _ | ⟨e, out⟩
  · simp
  · simp
  · simp

theorem check_eq_error_iff {err : Error} : f.check = .error err ↔ f.compile = .error err := by
  rw [check]
  rcases f.compile with other | _ | ⟨e, out⟩
  · simp
  · simp
  · simp

def applyJoins (joins : List FieldJoin) (q : Query) : Query :=
  joins.foldl (fun q join => join.apply q) q

theorem addTo_eq (out : Emission) (q : Query) :
    let joined := applyJoins (out.joined.filterMap (·.join)) q
    Emission.addTo out q =
      { joined with wheres := ⟨joined.wheres.conditions ++ out.conditions.entry⟩ } := by
  obtain ⟨conditions, joined⟩ := out
  induction joined generalizing q with
  | nil => exact congrArg (fun wheres => { q with wheres }) (q.wheres.nested_and conditions)
  | cons field joined ih =>
    cases hjoin : field.join with
    | none =>
      have hstep := ih q
      simpa only [Emission.addTo, List.foldl_cons, List.filterMap_cons, hjoin] using hstep
    | some join =>
      have hstep := ih (join.apply q)
      simpa only [Emission.addTo, applyJoins, List.foldl_cons, List.filterMap_cons, hjoin]
        using hstep

theorem exists_tables {joins : List FieldJoin} (h : ∀ join ∈ joins, ∃ table, join = .table table) :
    ∃ tables : List Join, joins = tables.map .table := by
  induction joins with
  | nil => exact ⟨[], rfl⟩
  | cons join joins ih =>
    obtain ⟨⟨table, rfl⟩, hrest⟩ := List.forall_mem_cons.1 h
    obtain ⟨tables, rfl⟩ := ih hrest
    exact ⟨table :: tables, rfl⟩

theorem applyJoins_table (tables : List Join) (q : Query) :
    applyJoins (tables.map .table) q = { q with joins := q.joins ++ tables } := by
  induction tables generalizing q with
  | nil => simp [applyJoins]
  | cons table tables ih =>
    have hrest := ih (q.join table)
    simpa [applyJoins, FieldJoin.apply, Query.join] using hrest

/-- Joins of tables go behind those of the query and leave the rest of it alone. -/
theorem exists_addTo_eq {out : Emission} (htables : ∀ field ∈ out.joined, ∀ join,
      field.join = some join → ∃ table, join = .table table) :
    ∃ tables : List Join, out.joined.filterMap (·.join) = tables.map .table ∧
      ∀ q, Emission.addTo out q =
        { q with
          joins := q.joins ++ tables
          wheres := ⟨q.wheres.conditions ++ out.conditions.entry⟩ } := by
  have hall : ∀ join ∈ out.joined.filterMap (·.join), ∃ table, join = .table table := by
    intro join hmem
    obtain ⟨field, hfield, hjoin⟩ := List.mem_filterMap.1 hmem
    exact htables field hfield join hjoin
  obtain ⟨tables, hjoins⟩ := exists_tables hall
  exact ⟨tables, hjoins, fun q => by rw [addTo_eq, hjoins, applyJoins_table]⟩

theorem addTo_wheres (out : Emission) (q : Query)
    (htables : ∀ field ∈ out.joined, ∀ join, field.join = some join →
      ∃ table, join = .table table) :
    (Emission.addTo out q).wheres = q.wheres.nested .and out.conditions := by
  obtain ⟨tables, -, hadd⟩ := exists_addTo_eq htables
  rw [hadd, WhereGroup.nested_and]

end Filter

theorem OperatorRegistry.get?_insert (r : OperatorRegistry) (symbol other : String)
    (o : Operator) :
    (r.insert symbol o).get? other = if symbol = other then some o else r.get? other := by
  simp [insert, get?, Std.TreeMap.getElem?_insert, Std.LawfulEqCmp.compare_eq_iff_eq]

@[simp] theorem OperatorRegistry.get?_empty (symbol : String) : empty.get? symbol = none := by
  simp [empty, get?]

theorem OperatorRegistry.get?_erase (r : OperatorRegistry) (symbol other : String) :
    (r.erase symbol).get? other = if symbol = other then none else r.get? other := by
  simp [erase, get?, Std.TreeMap.getElem?_erase, Std.LawfulEqCmp.compare_eq_iff_eq]

/-- Each symbol of a list is given its value or taken out, and no other symbol changes. -/
theorem OperatorRegistry.get?_foldl {step : OperatorRegistry → String → OperatorRegistry}
    (value : String → Option Operator)
    (hstep : ∀ r symbol other, (step r symbol).get? other =
      if symbol = other then value symbol else r.get? other)
    (symbols : List String) (r : OperatorRegistry) (symbol : String) :
    (symbols.foldl step r).get? symbol =
      if symbol ∈ symbols then value symbol else r.get? symbol := by
  induction symbols generalizing r with
  | nil => rfl
  | cons first symbols ih =>
    rw [List.foldl_cons, ih, hstep]
    by_cases hmem : symbol ∈ symbols
    · rw [if_pos hmem, if_pos (List.mem_cons_of_mem _ hmem)]
    · rw [if_neg hmem]
      by_cases hfirst : first = symbol
      · rw [if_pos hfirst, hfirst, if_pos List.mem_cons_self]
      · rw [if_neg hfirst, if_neg (by simp [hmem, Ne.symm hfirst])]

theorem OperatorRegistry.get?_default_eq (symbol : String) :
    default.get? symbol = if symbol ∈ defaultSymbols then some (.fixed symbol) else none := by
  rw [default, get?_foldl (some <| .fixed ·) fun r symbol other =>
    get?_insert r symbol other (.fixed symbol), get?_empty]

theorem OperatorRegistry.get?_default {symbol : String} {o : Operator}
    (h : default.get? symbol = some o) : o = .fixed symbol := by
  rw [get?_default_eq] at h
  exact (Option.some.inj (Option.ite_none_right_eq_some.1 h).2).symm

def Field.Unrestricted (f : Field) : Prop :=
  f.column = none ∧ f.operators = none ∧ f.excludedOperators = none ∧ f.values = none ∧
    f.types = none ∧ f.join = none

theorem Field.named_eq_ok_iff {name : String} {f : Field} :
    Field.named name = .ok f ↔ f.name = name ∧ f.Unrestricted := by
  obtain ⟨other, column, operators, excluded, values, types, join, hvalid⟩ := f
  unfold Field.named Field.Unrestricted
  constructor
  · intro h
    split at h
    · cases h
      exact ⟨rfl, rfl, rfl, rfl, rfl, rfl, rfl⟩
    · cases h
  · rintro ⟨rfl, rfl, rfl, rfl, rfl, rfl, rfl⟩
    rw [dif_pos hvalid]

theorem Field.named_eq_error_iff {name : String} {err : RegistryError} :
    Field.named name = .error err ↔ isFieldName name = false ∧ err = .invalidFieldName name := by
  unfold Field.named
  split
  · next h => simp [h]
  · next h => simp [h, eq_comm]

theorem FieldRegistry.get?_insert (r : FieldRegistry) (field : Field) (name : String) :
    (r.insert field).get? name = if field.name = name then some field else r.get? name := by
  simp [insert, get?, Std.TreeMap.getElem?_insert, Std.LawfulEqCmp.compare_eq_iff_eq]

@[simp] theorem FieldRegistry.get?_empty (name : String) : empty.get? name = none := by
  simp [empty, get?]

namespace Filter

theorem fixedOperators_of_default {f : Filter} (h : f.operators = .default)
    (cs : List Comparison) : f.FixedOperators cs := by
  intro c _ o ho
  rw [h] at ho
  exact ⟨c.operator, OperatorRegistry.get?_default ho⟩

def plainField : Field := ⟨"a", none, none, none, none, none, none, by decide⟩

def overField (field : Field) (expression : String) : Filter :=
  ⟨expression, FieldRegistry.empty.insert field, .default, ⟨true, 8⟩,
    ⟨0, 0, by decide, by decide, by decide⟩⟩

theorem get?_overField (field : Field) (expression : String) :
    (overField field expression).fields.get? field.name = some field := by
  rw [overField, FieldRegistry.get?_insert, if_pos rfl]

theorem eq_ok_of_toOption {ε α : Type} {x : Except ε α} {a : α} (h : x.toOption = some a) :
    x = .ok a := by
  cases x with
  | error err => cases h
  | ok other => rw [Option.some_inj.1 h]

theorem parse_overField (field : Field) (expression : String) (e : Expr)
    (h : (Expr.parse ⟨true, 8⟩ expression).toOption = some e) :
    Expr.parse (overField field expression).options (overField field expression).expression =
      .ok e :=
  eq_ok_of_toOption h

theorem accepted_overField {field : Field} {expression : String} {n : Nat}
    (h : (overField field expression).check.toOption = some n) :
    (overField field expression).Accepted :=
  ⟨n, eq_ok_of_toOption h⟩

theorem tableJoins_overField {field : Field} (h : field.join = none) (expression : String)
    (cs : List Comparison) : (overField field expression).TableJoins cs := by
  intro c _ other hother join hjoin
  have hempty : FieldRegistry.empty.get? c.field = none := by
    simp [FieldRegistry.empty, FieldRegistry.get?]
  simp only [overField, FieldRegistry.get?_insert, hempty] at hother
  split at hother
  · cases hother
    rw [h] at hjoin
    cases hjoin
  · cases hother

end Filter

end Sift

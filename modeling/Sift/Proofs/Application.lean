import Sift.Proofs.Emission

/-!
# What applying a filter does

Checking and applying a filter succeed together or fail with the same error. A filter that
fails leaves the query as it is. Otherwise the joins of the fields that are used go into the
query, each once and in the order of first use, and then the conditions go behind those of
the query as one group, if there are any.

`firstUse` counts the comparisons before the first one of a field, and `JoinOrder` is the
order of joins that comes from it. `update` applies a filter to a query in place, with the
filter compiled before anything is done to the query. `Extends` is all that a filter does to a
query.
-/

namespace Sift

namespace Filter

variable {f : Filter}

def firstUse (cs : List Comparison) (field : Field) : Nat := (cs.map (·.field)).idxOf field.name

/-- The fields with a join among those of the comparisons, each once and in the order of
first use. -/
structure JoinOrder (f : Filter) (cs : List Comparison) (fields : List Field) : Prop where
  mem_iff : ∀ field, field ∈ fields ↔
    field.join.isSome ∧ ∃ c ∈ cs, f.fields.get? c.field = some field
  once : (fields.map (·.name)).Nodup
  ordered : fields.Pairwise fun field other => firstUse cs field < firstUse cs other

theorem name_of_get? {name : String} {field : Field} (h : f.fields.get? name = some field) :
    field.name = name :=
  f.fields.named name field h

theorem JoinOrder.name_mem {cs : List Comparison} {fields : List Field}
    (h : f.JoinOrder cs fields) {field : Field} (hmem : field ∈ fields) :
    field.name ∈ cs.map (·.field) := by
  obtain ⟨-, c, hc, hfield⟩ := (h.mem_iff field).1 hmem
  rw [name_of_get? hfield]
  exact List.mem_map_of_mem hc

/-- A comparison behind the others does not change where a field was first used. -/
theorem JoinOrder.firstUse_concat {cs : List Comparison} {fields : List Field}
    (h : f.JoinOrder cs fields) (c : Comparison) {field : Field} (hmem : field ∈ fields) :
    firstUse (cs ++ [c]) field = firstUse cs field := by
  rw [firstUse, List.map_append, List.idxOf_append, if_pos (h.name_mem hmem), firstUse]

theorem JoinOrder.ordered_concat {cs : List Comparison} {fields : List Field}
    (h : f.JoinOrder cs fields) (c : Comparison) :
    fields.Pairwise fun field other => firstUse (cs ++ [c]) field < firstUse (cs ++ [c]) other := by
  refine h.ordered.imp_of_mem fun hfield hother hlt => ?_
  rwa [h.firstUse_concat c hfield, h.firstUse_concat c hother]

theorem mem_fields_concat {cs : List Comparison} {c : Comparison} {field : Field} :
    (∃ d ∈ cs ++ [c], f.fields.get? d.field = some field) ↔
      (∃ d ∈ cs, f.fields.get? d.field = some field) ∨ f.fields.get? c.field = some field := by
  simp [or_and_right, exists_or]

/-- A comparison adds nothing if its field has no join or is there already. -/
theorem JoinOrder.keep {cs : List Comparison} {fields : List Field} (h : f.JoinOrder cs fields)
    {c : Comparison} (hknown : ∀ field, f.fields.get? c.field = some field → field.join.isSome →
      field ∈ fields) :
    f.JoinOrder (cs ++ [c]) fields := by
  refine ⟨fun field => ?_, h.once, h.ordered_concat c⟩
  rw [mem_fields_concat, and_or_left, ← h.mem_iff]
  exact (or_iff_left_of_imp fun hnew => hknown field hnew.2 hnew.1).symm

/-- A comparison adds its field behind the others if it is the first to use its join. -/
theorem JoinOrder.add {cs : List Comparison} {fields : List Field} (h : f.JoinOrder cs fields)
    {c : Comparison} {field : Field} (hfield : f.fields.get? c.field = some field)
    (hjoin : field.join.isSome) (hnew : field ∉ fields) :
    f.JoinOrder (cs ++ [c]) (fields ++ [field]) := by
  have hname : field.name = c.field := name_of_get? hfield
  have hunused : field.name ∉ cs.map (·.field) := by
    intro hused
    obtain ⟨d, hd, hdname⟩ := List.mem_map.1 hused
    exact hnew ((h.mem_iff field).2 ⟨hjoin, d, hd, by rw [hdname, hname, hfield]⟩)
  -- the first use of the others is among `cs`, and so before this one
  have hlast : firstUse (cs ++ [c]) field = cs.length := by
    rw [firstUse, List.map_append, List.idxOf_append, if_neg hunused]
    simp [hname]
  refine ⟨fun other => ?_, ?_, ?_⟩
  · rw [List.mem_append, h.mem_iff, List.mem_singleton, mem_fields_concat, and_or_left, hfield,
      Option.some_inj]
    refine or_congr_right ⟨?_, fun hother => hother.2.symm⟩
    rintro rfl
    exact ⟨hjoin, rfl⟩
  · rw [List.map_append, List.nodup_append]
    refine ⟨h.once, by simp, ?_⟩
    rintro name hmem _ hother rfl
    obtain rfl : name = field.name := by simpa using hother
    obtain ⟨other, hother, hsame⟩ := List.mem_map.1 hmem
    exact hunused (hsame ▸ h.name_mem hother)
  · rw [List.pairwise_append]
    refine ⟨h.ordered_concat c, List.pairwise_singleton _ _, ?_⟩
    intro other hother last hmem
    obtain rfl : last = field := by simpa using hmem
    rw [hlast, h.firstUse_concat c hother, firstUse]
    simpa using List.idxOf_lt_length_of_mem (h.name_mem hother)

theorem JoinOrder.any_name_iff {cs : List Comparison} {fields : List Field}
    (h : f.JoinOrder cs fields) {name : String} {field : Field}
    (hfield : f.fields.get? name = some field) :
    fields.any (·.name = field.name) = true ↔ field ∈ fields := by
  simp only [List.any_eq_true, decide_eq_true_eq]
  refine ⟨?_, fun hmem => ⟨field, hmem, rfl⟩⟩
  rintro ⟨other, hother, hsame⟩
  obtain ⟨-, d, -, hd⟩ := (h.mem_iff other).1 hother
  rw [← name_of_get? hd, hsame, name_of_get? hfield, hfield] at hd
  rwa [Option.some_inj.1 hd]

/-- One more comparison records its field if it has a join and was not used before. -/
theorem JoinOrder.record {cs : List Comparison} {fields : List Field}
    (h : f.JoinOrder cs fields) (c : Comparison) :
    f.JoinOrder (cs ++ [c]) (recordJoins fields (f.usedFields [c])) := by
  cases hfield : f.fields.get? c.field with
  | none =>
    have hkeep : recordJoins fields (f.usedFields [c]) = fields := by
      simp [usedFields, hfield, recordJoins]
    rw [hkeep]
    exact h.keep (by simp [hfield])
  | some field =>
    have hrecord : recordJoins fields (f.usedFields [c]) = recordJoin field fields := by
      simp [usedFields, hfield, recordJoins]
    rw [hrecord, recordJoin]
    split
    · next hnew =>
      rw [Bool.and_eq_true, Bool.not_eq_true', ← Bool.not_eq_true, h.any_name_iff hfield] at hnew
      exact h.add hfield hnew.1 hnew.2
    · next hknown =>
      refine h.keep fun other hother hjoin => ?_
      obtain rfl := Option.some_inj.1 (hfield.symm.trans hother)
      rw [← h.any_name_iff hfield]
      simpa [hjoin] using hknown

theorem JoinOrder.recordJoins {cs : List Comparison} {fields : List Field}
    (h : f.JoinOrder cs fields) (ds : List Comparison) :
    f.JoinOrder (cs ++ ds) (recordJoins fields (f.usedFields ds)) := by
  induction ds generalizing cs fields with
  | nil => simpa [usedFields, Filter.recordJoins] using h
  | cons d ds ih =>
    have hstep := ih (h.record d)
    rwa [← recordJoins_append, usedFields, usedFields, ← List.filterMap_append,
      List.append_assoc] at hstep

theorem joinOrder_nil (f : Filter) : f.JoinOrder [] [] :=
  ⟨by simp, List.nodup_nil, List.Pairwise.nil⟩

theorem joinOrder_emission {e : Expr} {out : Emission} (h : f.emission e = .ok out) :
    f.JoinOrder e.leaves out.joined := by
  rw [emission_joined h]
  exact f.joinOrder_nil.recordJoins e.leaves

def update (f : Filter) : EStateM Error Query Unit := do
  match f.compile with
  | .error err => throw err
  | .ok none => return
  | .ok (some (_, out)) =>
    for field in out.joined do
      if let some join := field.join then
        modify join.apply
    modify fun q => { q with wheres := q.wheres.nested .and out.conditions }

theorem run_update (f : Filter) (q : Query) :
    f.update.run q =
      match f.apply q with
      | .ok q' => .ok () q'
      | .error err => .error err q := by
  unfold update apply
  rcases f.compile with err | _ | ⟨e, out⟩
  · rfl
  · rfl
  · obtain ⟨conditions, joined⟩ := out
    simp only
    induction joined generalizing q with
    | nil => rfl
    | cons field joined ih =>
      cases hjoin : field.join with
      | none =>
        have hstep := ih q
        simp only [List.forIn_cons, hjoin, Emission.addTo, List.foldl_cons] at hstep ⊢
        exact hstep
      | some join =>
        have hstep := ih (join.apply q)
        simp only [List.forIn_cons, hjoin, Emission.addTo, List.foldl_cons] at hstep ⊢
        exact hstep

/-- `q'` is `q` with the joins of the fields that are used, each once and in the order of
first use, and behind its conditions the group of the filter, unless that is empty. Joins of
tables go behind those of `q` and leave the rest of it alone. -/
structure Extends (f : Filter) (e : Expr) (out : Emission) (q q' : Query) : Prop where
  order : f.JoinOrder e.leaves out.joined
  joins : ∃ joins : List FieldJoin, out.joined.map (·.join) = joins.map some ∧
    q' =
      { applyJoins joins q with
        wheres := ⟨(applyJoins joins q).wheres.conditions ++ out.conditions.entry⟩ }
  tables : f.TableJoins e.leaves → ∃ tables : List Join,
    out.joined.map (·.join) = tables.map (some <| .table ·) ∧
      q' =
        { q with
          joins := q.joins ++ tables
          wheres := ⟨q.wheres.conditions ++ out.conditions.entry⟩ }

theorem JoinOrder.map_join {cs : List Comparison} {fields : List Field}
    (h : f.JoinOrder cs fields) :
    fields.map (·.join) = (fields.filterMap (·.join)).map some := by
  rw [List.map_filterMap_some_eq_filter_map_isSome, List.filter_eq_self.2]
  intro join hjoin
  obtain ⟨field, hfield, rfl⟩ := List.mem_map.1 hjoin
  exact ((h.mem_iff field).1 hfield).1

theorem extends_addTo {e : Expr} {out : Emission} (h : f.emission e = .ok out) (q : Query) :
    f.Extends e out q (Emission.addTo out q) := by
  have horder := joinOrder_emission h
  refine ⟨horder, ⟨_, horder.map_join, addTo_eq out q⟩, fun htables => ?_⟩
  obtain ⟨tables, hjoins, hadd⟩ := exists_addTo_eq fun field hfield join hjoin =>
    table_of_mem_joined h htables hfield hjoin
  refine ⟨tables, ?_, hadd q⟩
  rw [horder.map_join, hjoins, List.map_map]
  rfl

/-- Checking and applying fail together and then leave the query as it is, or they succeed
together: without any effect if the filter is blank, and by extending the query otherwise. -/
theorem apply_effect (f : Filter) (q : Query) :
    (∃ err, f.check = .error err ∧ f.apply q = .error err ∧ f.update.run q = .error err q) ∨
      (f.parse = .ok none ∧ f.check = .ok 0 ∧ f.apply q = .ok q ∧ f.update.run q = .ok () q) ∨
      ∃ e out q', f.parse = .ok (some e) ∧ f.compile = .ok (some (e, out)) ∧
        f.check = .ok e.leaves.length ∧ f.apply q = .ok q' ∧ f.update.run q = .ok () q' ∧
        f.Extends e out q q' := by
  have hrun := f.run_update q
  cases hcompile : f.compile with
  | error err =>
    have happly := (apply_eq_error_iff (q := q)).2 hcompile
    rw [happly] at hrun
    exact .inl ⟨err, check_eq_error_iff.2 hcompile, happly, hrun⟩
  | ok compiled =>
    cases compiled with
    | none =>
      have happly : f.apply q = .ok q := by simp [apply, hcompile]
      rw [happly] at hrun
      exact .inr (.inl ⟨compile_eq_none_iff.1 hcompile, by simp [check, hcompile], happly, hrun⟩)
    | some compiled =>
      obtain ⟨e, out⟩ := compiled
      obtain ⟨hparse, hout⟩ := compile_eq_some_iff.1 hcompile
      have happly : f.apply q = .ok (Emission.addTo out q) := by simp [apply, hcompile]
      rw [happly] at hrun
      exact .inr (.inr ⟨e, out, _, hparse, rfl, by simp [check, hcompile], happly, hrun,
        extends_addTo hout q⟩)

def tableField (name table : String) (h : isFieldName name = true) : Field :=
  ⟨name, none, none, none, none, none,
    some (.table ⟨table, "t.id", "=", table ++ ".id", .inner⟩), h⟩

/-- The first use decides, and a second one does not count. -/
example :
    ({ overField plainField "b=1&(a=2|b=3)&()" with
      fields := (FieldRegistry.empty.insert (tableField "a" "x" (by decide))).insert
        (tableField "b" "y" (by decide)) }.apply (.ofTable "t")).toOption.map
      (fun q : Query => q.joins.map Join.table) = some ["y", "x"] := by
  decide +kernel

end Filter

end Sift

import Mathlib.Data.List.Induction
import Sift.Proofs.Emission

/-!
# Runs of calls on a registry of fields

A registry hands out the field that was put into it last, and calls that configure the field
work on it in place. They know nothing of the key that the field is under, and some of them
fail. Still every field is under its own name after every run, so names tell the fields of a
registry apart as well as keys do.

`Build` has the calls that configure a field, and `Call` those on a registry or on the field
that it has handed out. `step` is the session after a call, whether it fails or not, and
`runAll` the one after calls on an empty registry. `Consistent` says that every field is under
its name.
-/

namespace Sift

/-- The state that a call leaves behind, whether it fails or not. -/
def stateAfter {ε σ α : Type} : EStateM.Result ε σ α → σ
  | .ok _ s => s
  | .error _ s => s

inductive SymbolList where
  | list (symbols : List String)
  | text (spec : String)

def SymbolList.symbols : SymbolList → List String
  | .list symbols => symbols
  | .text spec => symbolsOfText spec

inductive Build where
  | column (name : String)
  | operators (symbols : SymbolList)
  | excludeOperators (symbols : SymbolList)
  | values (list : List Literal)
  | valueTypes (spec : String)
  | valueTypeList (types : List ValueType)
  | join (table : Join)
  | joinWith (hook : Query → Query)

namespace Build

def perform : Build → EStateM RegistryError Field Unit
  | .column name => modify (·.withColumn name)
  | .operators symbols => modify (·.withOperators symbols.symbols)
  | .excludeOperators symbols => modify (·.withoutOperators symbols.symbols)
  | .values list => modify (·.withValues list)
  | .valueTypes spec => do
    let types ← ofExcept (ValueType.union spec)
    modify (·.withTypes types)
  | .valueTypeList types => modify (·.withTypes types)
  | .join table => modify (·.withJoin (.table table))
  | .joinWith hook => modify (·.withJoin (.custom hook))

theorem run_valueTypes (spec : String) (f : Field) :
    (Build.valueTypes spec).perform.run f =
      match f.withUnion spec with
      | .ok f' => .ok () f'
      | .error err => .error err f := by
  unfold Field.withUnion
  cases hunion : ValueType.union spec <;> (simp only [perform, hunion]; rfl)

/-- A call keeps the name of the field, or it fails on the union of types and leaves the field
as it is. -/
theorem perform_cases (b : Build) (f : Field) :
    (∃ f', b.perform.run f = .ok () f' ∧ f'.name = f.name) ∨
      ∃ spec err, b = .valueTypes spec ∧ ValueType.union spec = .error err ∧
        b.perform.run f = .error err f := by
  cases b with
  | valueTypes spec =>
    cases hunion : ValueType.union spec with
    | ok types =>
      refine .inl ⟨f.withTypes types, ?_, rfl⟩
      rw [run_valueTypes, Field.withUnion, hunion]
      rfl
    | error err =>
      refine .inr ⟨spec, err, rfl, hunion, ?_⟩
      rw [run_valueTypes, Field.withUnion, hunion]
      rfl
  | column name => exact .inl ⟨f.withColumn name, rfl, rfl⟩
  | operators symbols => exact .inl ⟨f.withOperators symbols.symbols, rfl, rfl⟩
  | excludeOperators symbols => exact .inl ⟨f.withoutOperators symbols.symbols, rfl, rfl⟩
  | values list => exact .inl ⟨f.withValues list, rfl, rfl⟩
  | valueTypeList types => exact .inl ⟨f.withTypes types, rfl, rfl⟩
  | join table => exact .inl ⟨f.withJoin (.table table), rfl, rfl⟩
  | joinWith hook => exact .inl ⟨f.withJoin (.custom hook), rfl, rfl⟩

def applyAll (builds : List Build) (f : Field) : Field :=
  builds.foldl (fun f b => stateAfter (b.perform.run f)) f

theorem applyAll_append (builds builds' : List Build) (f : Field) :
    applyAll (builds ++ builds') f = applyAll builds' (applyAll builds f) := List.foldl_append

/-- A call sets a part of a field if the part is given. -/
theorem applyAll_toList {α : Type} (build : α → Build) (set : Field → α → Field)
    (hset : ∀ f v, stateAfter ((build v).perform.run f) = set f v) (part : Option α) (f : Field) :
    applyAll (part.toList.map build) f = (part.map (set f)).getD f := by
  cases part with
  | none => rfl
  | some v => exact hset f v

/-- Every field is made by calls on a new one, so any field may be put into a registry. -/
theorem exists_applyAll_eq (f : Field) :
    ∃ new builds, Field.named f.name = .ok new ∧ applyAll builds new = f := by
  obtain ⟨name, column, operators, excluded, values, types, join, hvalid⟩ := f
  obtain ⟨joins, hjoins⟩ : ∃ builds, ∀ f, applyAll builds f = (join.map f.withJoin).getD f := by
    rcases join with _ | table | hook
    · exact ⟨[], fun f => rfl⟩
    · exact ⟨[.join table], fun f => rfl⟩
    · exact ⟨[.joinWith hook], fun f => rfl⟩
  refine ⟨⟨name, none, none, none, none, none, none, hvalid⟩,
    column.toList.map .column ++ operators.toList.map (.operators <| .list ·) ++
      excluded.toList.map (.excludeOperators <| .list ·) ++ values.toList.map .values ++
      types.toList.map .valueTypeList ++ joins,
    Field.named_eq_ok_iff.2 ⟨rfl, rfl, rfl, rfl, rfl, rfl, rfl⟩, ?_⟩
  rw [applyAll_append, applyAll_append, applyAll_append, applyAll_append, applyAll_append, hjoins,
    applyAll_toList .column Field.withColumn fun f v => rfl,
    applyAll_toList (.operators <| .list ·) Field.withOperators fun f v => rfl,
    applyAll_toList (.excludeOperators <| .list ·) Field.withoutOperators fun f v => rfl,
    applyAll_toList .values Field.withValues fun f v => rfl,
    applyAll_toList .valueTypeList Field.withTypes fun f v => rfl]
  cases column <;> cases operators <;> cases excluded <;> cases values <;> cases types <;>
    cases join <;> rfl

theorem name_stateAfter (b : Build) (f : Field) :
    (stateAfter (b.perform.run f)).name = f.name := by
  obtain ⟨f', hrun, hname⟩ | ⟨spec, err, -, -, hrun⟩ := b.perform_cases f
  · rw [hrun]
    exact hname
  · rw [hrun]
    rfl

end Build

/-- The fields under their keys, and the key of the one that is handed out. -/
structure Session where
  entries : Std.TreeMap String Field
  handle : Option String

namespace Session

variable {s : Session} {f : Field} {key name : String}

def empty : Session := ⟨∅, none⟩

def get? (s : Session) (key : String) : Option Field := s.entries[key]?

def put (s : Session) (key : String) (f : Field) : Session :=
  { s with entries := s.entries.insert key f }

def place (s : Session) (f : Field) : Session := { s.put f.name f with handle := some f.name }

def erase (s : Session) (name : String) : Session := ⟨s.entries.erase name, none⟩

def handed? (s : Session) : Option (String × Field) :=
  s.handle.bind fun key => (s.get? key).map (key, ·)

/-- What a call on a field leaves of it goes back into the registry, also if the call fails. -/
def putBack (s : Session) (key : String) :
    EStateM.Result RegistryError Field Unit → EStateM.Result RegistryError Session Unit
  | .ok _ f => .ok () (s.put key f)
  | .error err f => .error err (s.put key f)

def configure (b : Build) : EStateM RegistryError Session Unit := fun s =>
  match s.handed? with
  | none => .ok () s
  | some (key, f) => s.putBack key (b.perform.run f)

theorem get?_empty (key : String) : empty.get? key = none := by
  simp [empty, get?]

theorem get?_put : (s.put key f).get? name = if key = name then some f else s.get? name := by
  simp [put, get?, Std.TreeMap.getElem?_insert, Std.LawfulEqCmp.compare_eq_iff_eq]

theorem get?_place :
    (s.place f).get? name = if f.name = name then some f else s.get? name := get?_put

theorem get?_erase : (s.erase key).get? name = if key = name then none else s.get? name := by
  simp [erase, get?, Std.TreeMap.getElem?_erase, Std.LawfulEqCmp.compare_eq_iff_eq]

def Consistent (s : Session) : Prop := ∀ key f, s.get? key = some f → f.name = key

theorem consistent_empty : empty.Consistent := by simp [Consistent, get?_empty]

theorem Consistent.place (h : s.Consistent) (f : Field) : (s.place f).Consistent := by
  intro key g hg
  rw [get?_place] at hg
  split at hg
  · next heq => rw [← Option.some.inj hg, heq]
  · exact h key g hg

theorem Consistent.erase (h : s.Consistent) (name : String) : (s.erase name).Consistent := by
  intro key f hf
  rw [get?_erase] at hf
  exact h key f (Option.ite_none_left_eq_some.1 hf).2

theorem handed?_eq_some_iff :
    s.handed? = some (key, f) ↔ s.handle = some key ∧ s.get? key = some f := by
  unfold handed?
  constructor
  · intro h
    obtain ⟨other, hhandle, hother⟩ := Option.bind_eq_some_iff.1 h
    obtain ⟨g, hg, heq⟩ := Option.map_eq_some_iff.1 hother
    obtain ⟨rfl, rfl⟩ := Prod.mk.inj heq
    exact ⟨hhandle, hg⟩
  · rintro ⟨hhandle, hf⟩
    simp [hhandle, hf]

theorem stateAfter_putBack (r : EStateM.Result RegistryError Field Unit) :
    stateAfter (s.putBack key r) = s.put key (stateAfter r) := by
  cases r <;> rfl

theorem run_configure (b : Build) (s : Session) : (configure b).run s =
    match s.handed? with
    | none => .ok () s
    | some (key, f) => s.putBack key (b.perform.run f) := rfl

/-- Configuring changes what is handed out, and no other field. -/
theorem get?_configure (b : Build) (s : Session) (key : String) :
    (stateAfter ((configure b).run s)).get? key =
      if s.handle = some key then (s.get? key).map fun f => stateAfter (b.perform.run f)
      else s.get? key := by
  rw [run_configure]
  cases hhanded : s.handed? with
  | none =>
    change s.get? key = _
    split
    · next hhandle =>
      cases hf : s.get? key with
      | none => rfl
      | some f => cases hhanded.symm.trans (handed?_eq_some_iff.2 ⟨hhandle, hf⟩)
    · rfl
  | some entry =>
    obtain ⟨other, f⟩ := entry
    obtain ⟨hhandle, hf⟩ := handed?_eq_some_iff.1 hhanded
    dsimp only
    rw [stateAfter_putBack, get?_put]
    by_cases hkey : other = key
    · subst hkey
      rw [if_pos rfl, if_pos hhandle, hf, Option.map_some]
    · rw [if_neg hkey, if_neg (by simp [hhandle, hkey])]

theorem handle_configure (b : Build) (s : Session) :
    (stateAfter ((configure b).run s)).handle = s.handle := by
  rw [run_configure]
  cases s.handed? with
  | none => rfl
  | some entry =>
    dsimp only
    rw [stateAfter_putBack]
    rfl

/-- A call that fails puts back the field that it has found. -/
theorem get?_of_configure_eq_error {b : Build} {err : RegistryError} {s' : Session}
    (h : (configure b).run s = .error err s') (key : String) : s'.get? key = s.get? key := by
  rw [run_configure] at h
  cases hhanded : s.handed? with
  | none =>
    rw [hhanded] at h
    cases h
  | some entry =>
    obtain ⟨other, f⟩ := entry
    obtain ⟨-, hf⟩ := handed?_eq_some_iff.1 hhanded
    rw [hhanded] at h
    obtain ⟨f', hrun, -⟩ | ⟨spec, _, -, -, hrun⟩ := b.perform_cases f
    · simp only [hrun, putBack] at h
      cases h
    · simp only [hrun, putBack] at h
      cases h
      rw [get?_put]
      split
      · next heq => rw [← heq, hf]
      · rfl

end Session

inductive Call where
  | add (name : String)
  | insert (f : Field)
  | remove (name : String)
  | build (b : Build)

namespace Call

variable {s s' t : Session} {c : Call} {f : Field} {key : String}

def perform : Call → EStateM RegistryError Session Unit
  | .add name => do
    modify fun s => { s with handle := none }
    let f ← ofExcept (Field.named name)
    modify (·.place f)
  | .insert f => modify (·.place f)
  | .remove name => modify (·.erase name)
  | .build b => Session.configure b

theorem run_add (name : String) (s : Session) :
    (Call.add name).perform.run s =
      match Field.named name with
      | .ok f => .ok () (s.place f)
      | .error err => .error err { s with handle := none } := by
  cases hnamed : Field.named name <;> (simp only [perform, hnamed]; rfl)

def step (s : Session) (c : Call) : Session := stateAfter (c.perform.run s)

def runAll (calls : List Call) : Session := calls.foldl step .empty

theorem step_add (s : Session) (name : String) : step s (.add name) =
    match Field.named name with
    | .ok f => s.place f
    | .error _ => { s with handle := none } := by
  rw [step, run_add]
  cases Field.named name <;> rfl

theorem step_build (s : Session) (b : Build) :
    step s (.build b) = stateAfter ((Session.configure b).run s) := rfl

/-- Every call keeps the fields under their names. -/
theorem consistent_step (h : s.Consistent) (c : Call) : (step s c).Consistent := by
  cases c with
  | add name =>
    rw [step_add]
    cases Field.named name with
    | ok f => exact h.place f
    | error err => exact h
  | insert f => exact h.place f
  | remove name => exact h.erase name
  | build b =>
    intro key g hg
    rw [step_build, Session.get?_configure] at hg
    split at hg
    · obtain ⟨f, hf, rfl⟩ := Option.map_eq_some_iff.1 hg
      rw [b.name_stateAfter, h key f hf]
    · exact h key g hg

theorem consistent_foldl (h : s.Consistent) (calls : List Call) :
    (calls.foldl step s).Consistent := by
  induction calls generalizing s with
  | nil => exact h
  | cons c calls ih => exact ih (consistent_step h c)

/-- The field is under its name, whatever was there before, and is handed out. Every other key is
as it was. -/
structure Replaces (s : Session) (f : Field) (s' : Session) : Prop where
  placed : s'.get? f.name = some f
  handed : s'.handle = some f.name
  others : ∀ key, key ≠ f.name → s'.get? key = s.get? key

theorem replaces_place (s : Session) (f : Field) : Replaces s f (s.place f) := by
  refine ⟨by rw [Session.get?_place, if_pos rfl], rfl, fun key hkey => ?_⟩
  rw [Session.get?_place, if_neg hkey.symm]

def placed? : Call → Option Field
  | .add name => (Field.named name).toOption
  | .insert f => some f
  | .remove _ | .build _ => none

theorem run_of_placed? (h : c.placed? = some f) (s : Session) :
    c.perform.run s = .ok () (s.place f) := by
  cases c with
  | add name =>
    rw [run_add]
    cases hnamed : Field.named name with
    | ok g =>
      simp only [placed?, hnamed, Except.toOption, Option.some.injEq] at h
      rw [h]
    | error err =>
      simp only [placed?, hnamed, Except.toOption, reduceCtorEq] at h
  | insert g =>
    obtain rfl := Option.some.inj h
    rfl
  | remove name => cases h
  | build b => cases h

/-- The sessions agree on what is under the key and on which key is handed out. -/
def AgreeAt (key : String) (s t : Session) : Prop := s.handle = t.handle ∧ s.get? key = t.get? key

theorem agreeAt_place (f : Field) (h : AgreeAt key s t) : AgreeAt key (s.place f) (t.place f) := by
  refine ⟨rfl, ?_⟩
  rw [Session.get?_place, Session.get?_place, h.2]

theorem agreeAt_step (h : AgreeAt key s t) (c : Call) : AgreeAt key (step s c) (step t c) := by
  cases c with
  | add name =>
    rw [step_add, step_add]
    cases Field.named name with
    | ok f => exact agreeAt_place f h
    | error err => exact ⟨rfl, h.2⟩
  | insert f => exact agreeAt_place f h
  | remove name =>
    refine ⟨rfl, ?_⟩
    change (s.erase name).get? key = (t.erase name).get? key
    rw [Session.get?_erase, Session.get?_erase, h.2]
  | build b =>
    rw [step_build, step_build]
    refine ⟨?_, ?_⟩
    · rw [Session.handle_configure, Session.handle_configure, h.1]
    · rw [Session.get?_configure, Session.get?_configure, h.1, h.2]

theorem agreeAt_foldl (h : AgreeAt key s t) (calls : List Call) :
    AgreeAt key (calls.foldl step s) (calls.foldl step t) := by
  induction calls generalizing s t with
  | nil => exact h
  | cons c calls ih => exact ih (agreeAt_step h c)

/-- What is under a name depends only on the calls since a field was put there. -/
theorem get?_foldl_of_placed? (h : c.placed? = some f) (s t : Session) (after : List Call) :
    ((c :: after).foldl step s).get? f.name = ((c :: after).foldl step t).get? f.name := by
  have hstep (u : Session) : step u c = u.place f := by rw [step, run_of_placed? h, stateAfter]
  have hplaced : AgreeAt f.name (s.place f) (t.place f) := by
    refine ⟨rfl, ?_⟩
    rw [Session.get?_place, Session.get?_place, if_pos rfl, if_pos rfl]
  rw [List.foldl_cons, List.foldl_cons, hstep, hstep]
  exact (agreeAt_foldl hplaced after).2

end Call

namespace Filter

def joinKeys (f : Filter) (cs : List Comparison) : List String :=
  (cs.map (·.field)).filter fun key => ((f.fields.get? key).bind (·.join)).isSome

variable {f : Filter}

/-- Names tell registered fields apart as well as keys do. -/
theorem any_name_filterMap {key : String} {field : Field} (h : f.fields.get? key = some field)
    (keys : List String) :
    (keys.filterMap f.fields.get?).any (·.name = field.name) = decide (key ∈ keys) := by
  have hname := f.fields.named key field h
  rw [Bool.eq_iff_iff, List.any_eq_true]
  simp only [List.mem_filterMap, decide_eq_true_eq]
  constructor
  · rintro ⟨other, ⟨k, hk, hother⟩, hsame⟩
    have hkey : k = key := by rw [← f.fields.named k other hother, hsame, hname]
    exact hkey ▸ hk
  · exact fun hkey => ⟨field, ⟨key, hkey, h⟩, rfl⟩

theorem joinKeys_concat (cs : List Comparison) (c : Comparison) :
    f.joinKeys (cs ++ [c]) = f.joinKeys cs ++ f.joinKeys [c] := by
  rw [joinKeys, List.map_append, List.filter_append]
  rfl

theorem eraseDups_concat (keys : List String) (key : String) :
    (keys ++ [key]).eraseDups = keys.eraseDups ++ if key ∈ keys then [] else [key] := by
  have hone : [key].eraseDups = [key] := rfl
  rw [List.eraseDups_append, List.cons_removeAll, List.nil_removeAll]
  by_cases hkey : key ∈ keys <;> simp [hkey, hone]

/-- The fields are recorded as their keys would be. -/
theorem recordJoins_eq_keys (f : Filter) (cs : List Comparison) :
    recordJoins [] (f.usedFields cs) = (f.joinKeys cs).eraseDups.filterMap f.fields.get? := by
  induction cs using List.reverseRecOn with
  | nil => rfl
  | append_singleton cs c ih =>
    have hused : f.usedFields (cs ++ [c]) = f.usedFields cs ++ f.usedFields [c] :=
      List.filterMap_append
    rw [hused, recordJoins_append, ih, joinKeys_concat]
    cases hfield : f.fields.get? c.field with
    | none =>
      have hkeys : f.joinKeys [c] = [] := by simp [joinKeys, hfield]
      have hfields : f.usedFields [c] = [] := by simp [usedFields, hfield]
      rw [hkeys, hfields, List.append_nil]
      rfl
    | some field =>
      have hfields : f.usedFields [c] = [field] := by simp [usedFields, hfield]
      rw [hfields, recordJoins, List.foldl_cons, List.foldl_nil, recordJoin,
        any_name_filterMap hfield]
      simp only [List.mem_eraseDups]
      cases hjoin : field.join with
      | none =>
        have hkeys : f.joinKeys [c] = [] := by simp [joinKeys, hfield, hjoin]
        rw [hkeys, List.append_nil]
        rfl
      | some join =>
        have hkeys : f.joinKeys [c] = [c.field] := by simp [joinKeys, hfield, hjoin]
        rw [hkeys, eraseDups_concat, List.filterMap_append]
        by_cases hknown : c.field ∈ f.joinKeys cs <;> simp [hknown, hfield]

end Filter

theorem isFieldName_iff (s : String) :
    isFieldName s = true ↔ s ≠ "" ∧ ∀ c ∈ s.toList, isFieldChar c = true := by
  simp [isFieldName]

namespace Call

def outcome : EStateM.Result RegistryError Session Unit →
    Except RegistryError (Std.TreeMap String Field)
  | .ok _ s => .ok s.entries
  | .error err _ => .error err

/-- The session has the fields of the registry, and its calls on them are the operations of the
registry. -/
structure Follows (s : Session) (r : FieldRegistry) : Prop where
  fields : s.entries = r.fields
  add : ∀ name, outcome ((Call.add name).perform.run s) = (r.add name).map (·.fields)
  insert : ∀ f, outcome ((Call.insert f).perform.run s) = .ok (r.insert f).fields
  remove : ∀ name, outcome ((Call.remove name).perform.run s) = .ok (r.erase name).fields

theorem follows_of_consistent (h : s.Consistent) : Follows s ⟨s.entries, h⟩ := by
  refine ⟨rfl, fun name => ?_, fun f => rfl, fun name => rfl⟩
  rw [run_add, FieldRegistry.add]
  cases Field.named name <;> rfl

/-- Fields are registered under their names after every run of calls, whichever of them fail.
A call that fails changes no field. One that puts a field into the registry, which may be
anything that calls make of a new field, leaves nothing of what was set before under its name,
and changes nothing under other names; one that configures a field changes only the field that
was handed out last. A filter over the fields records them for their joins as if it compared
keys. -/
theorem fields_consistent (calls : List Call) :
    let s := runAll calls
    (∀ key f, s.get? key = some f →
      f.name = key ∧ key ≠ "" ∧ ∀ c ∈ key.toList, isFieldChar c = true) ∧
    (∀ name, (isFieldName name = true ∧
        ∃ f s', f.name = name ∧ f.Unrestricted ∧ (Call.add name).perform.run s = .ok () s' ∧
          Replaces s f s') ∨
      (isFieldName name = false ∧
        ∃ s', (Call.add name).perform.run s = .error (.invalidFieldName name) s' ∧
          s'.entries = s.entries)) ∧
    (∀ f, ∃ s', (Call.insert f).perform.run s = .ok () s' ∧ Replaces s f s') ∧
    (∀ name, ∃ s', (Call.remove name).perform.run s = .ok () s' ∧ s'.get? name = none ∧
      ∀ key, key ≠ name → s'.get? key = s.get? key) ∧
    (∀ b key, (step s (.build b)).get? key =
      if s.handle = some key then (s.get? key).map fun f => stateAfter (b.perform.run f)
      else s.get? key) ∧
    (∀ b err s', (Call.build b).perform.run s = .error err s' →
      ∀ key, s'.get? key = s.get? key) ∧
    (∀ (b : Build) f, (∃ f', b.perform.run f = .ok () f' ∧ f'.name = f.name) ∨
      ∃ spec err, b = .valueTypes spec ∧ ValueType.union spec = .error err ∧
        b.perform.run f = .error err f) ∧
    (∀ f, ∃ new builds, Field.named f.name = .ok new ∧ Build.applyAll builds new = f) ∧
    (∀ c f after, c.placed? = some f →
      (runAll (calls ++ c :: after)).get? f.name = (runAll (c :: after)).get? f.name) ∧
    ∃ r, Follows s r ∧ ∀ flt : Filter, flt.fields = r → ∀ e out, flt.emission e = .ok out →
      out.joined = (flt.joinKeys e.leaves).eraseDups.filterMap r.get? := by
  intro s
  have hconsistent : s.Consistent := consistent_foldl Session.consistent_empty calls
  refine ⟨fun key f hf => ?_, fun name => ?_, fun f => ⟨_, rfl, replaces_place s f⟩,
    fun name => ⟨_, rfl, ?_, fun key hkey => ?_⟩, fun b key => Session.get?_configure b s key,
    fun b err s' => Session.get?_of_configure_eq_error, fun b f => b.perform_cases f,
    Build.exists_applyAll_eq, fun c f after hc => ?_, _, follows_of_consistent hconsistent,
    fun flt hflt e out hout => ?_⟩
  · have hname := hconsistent key f hf
    exact ⟨hname, (isFieldName_iff key).1 (hname ▸ f.name_valid)⟩
  · rw [run_add]
    cases hnamed : Field.named name with
    | ok f =>
      obtain ⟨hname, hnone⟩ := Field.named_eq_ok_iff.1 hnamed
      exact .inl ⟨hname ▸ f.name_valid, f, _, hname, hnone, rfl, replaces_place s f⟩
    | error err =>
      obtain ⟨hinvalid, rfl⟩ := Field.named_eq_error_iff.1 hnamed
      exact .inr ⟨hinvalid, _, rfl, rfl⟩
  · rw [Session.get?_erase, if_pos rfl]
  · rw [Session.get?_erase, if_neg hkey.symm]
  · rw [runAll, List.foldl_append]
    exact get?_foldl_of_placed? hc _ _ after
  · rw [Filter.emission_joined hout, Filter.recordJoins_eq_keys, hflt]

end Call

end Sift

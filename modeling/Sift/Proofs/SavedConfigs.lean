import Mathlib
import Sift.Config.Reader
import Sift.Proofs.TomlDocuments
import Sift.Proofs.TomlReadings

/-!
# Saving a configuration loses nothing

A configuration that was read is found again in its own text. Every list of a field that is
there is written, also an empty one, so it stays apart from a list that is absent. The text
is refused only if the reader of documents gives up on it, which depends on how deeply its
statements are nested.
-/

namespace Sift

open Toml
open Toml.Value (Everywhere IsRead IsWritable)

section
variable {α : Type}

theorem lookup_entryOf (key : String) (write : α → Value) (o : Option α) (k : String) :
    (entryOf key write o).lookup k = if k = key then o.map write else none := by
  cases o with
  | none => simp [entryOf]
  | some a => rw [entryOf, lookup_cons_eq]; rfl

theorem mem_entryOf {key : String} {write : α → Value} {o : Option α} {e : String × Value}
    (h : e ∈ entryOf key write o) : ∃ a, o = some a ∧ e = (key, write a) := by
  cases o with
  | none => cases h
  | some a => exact ⟨a, rfl, List.mem_singleton.1 h⟩

theorem keys_entryOf (key : String) (write : α → Value) (o : Option α) :
    ((entryOf key write o).map Prod.fst).Sublist [key] := by
  cases o with
  | none => exact List.nil_sublist _
  | some a => exact List.Sublist.refl _

def unlessEmpty (xs : List α) : Option (List α) := if xs.isEmpty then none else some xs

theorem entryOf_unlessEmpty (key : String) (write : List α → Value) (xs : List α) :
    entryOf key write (unlessEmpty xs) = if xs.isEmpty then [] else [(key, write xs)] := by
  cases xs with
  | nil => rfl
  | cons x xs => rfl

theorem keys_append {entries entries' : List (String × Value)} {keys keys' : List String}
    (h : (entries.map Prod.fst).Sublist keys) (h' : (entries'.map Prod.fst).Sublist keys') :
    ((entries ++ entries').map Prod.fst).Sublist (keys ++ keys') := by
  rw [List.map_append]
  exact h.append h'

theorem keysDistinct_of_sublist {entries : List (String × Value)} {keys : List String}
    (h : (entries.map Prod.fst).Sublist keys) (hkeys : keys.Nodup) : KeysDistinct entries :=
  List.pairwise_map.1 (hkeys.sublist h)

theorem mapM_map_some {β γ : Type} {write : α → β} {read : β → Option γ} {f : α → γ} {xs : List α}
    (h : ∀ x ∈ xs, read (write x) = some (f x)) : (xs.map write).mapM read = some (xs.map f) := by
  induction xs with
  | nil => rfl
  | cons x xs ih =>
    obtain ⟨hx, hxs⟩ := List.forall_mem_cons.1 h
    rw [List.map_cons, List.mapM_cons, hx, ih hxs]
    rfl

end

namespace Toml.Value

theorem anyNaN_eq (vs : List Value) : anyNaN vs = vs.any holdsNaN := by
  induction vs with
  | nil => rfl
  | cons v vs ih => rw [anyNaN, ih, List.any_cons]

theorem anyNaNEntry_eq (es : List (String × Value)) :
    anyNaNEntry es = es.any fun e => e.2.holdsNaN := by
  induction es with
  | nil => rfl
  | cons e es ih =>
    obtain ⟨k, v⟩ := e
    rw [anyNaNEntry, ih, List.any_cons]

/-- Only NaN is lost among the values that can be read. -/
theorem everywhere_writable {v : Value} (hread : Everywhere IsRead v) (hnan : v.holdsNaN = false) :
    Everywhere IsWritable v := by
  induction v using Value.induction with
  | scalar v harray htable =>
    rw [everywhere_scalar harray htable] at hread ⊢
    cases v with
    | float x => exact hnan
    | dateTime d => exact hread
    | table es => exact absurd rfl (htable es)
    | _ => trivial
  | array vs ih =>
    rw [everywhere_array] at hread ⊢
    rw [holdsNaN, anyNaN_eq, List.any_eq_false] at hnan
    exact ⟨trivial, fun v hv => ih v hv (hread.2 v hv) (by simpa using hnan v hv)⟩
  | table es ih =>
    rw [everywhere_table] at hread ⊢
    rw [holdsNaN, anyNaNEntry_eq, List.any_eq_false] at hnan
    exact ⟨KeysOrdered.distinct hread.1, fun e he =>
      ih e he (hread.2 e he) (by simpa using hnan e he)⟩

theorem everywhere_arranged {v : Value} (h : Everywhere IsWritable v) :
    Everywhere IsWritable v.arranged := by
  induction v using Value.induction with
  | scalar v harray htable =>
    cases v with
    | array vs => exact absurd rfl (harray vs)
    | table es => exact absurd rfl (htable es)
    | _ => exact h
  | array vs ih =>
    rw [everywhere_array] at h
    rw [arranged, arrangedElements_eq, everywhere_array]
    refine ⟨trivial, fun v hv => ?_⟩
    obtain ⟨w, hw, rfl⟩ := List.mem_map.1 hv
    exact ih w hw (h.2 w hw)
  | table es ih =>
    rw [everywhere_table] at h
    have hkeys : KeysDistinct es := h.1
    have hperm := tablesLast_perm (mapValues arranged es)
    rw [arranged, arrangedEntries_eq, everywhere_table]
    refine ⟨(keysDistinct_mapValues hkeys arranged).perm hperm.symm fun hne => hne.symm,
      fun e he => ?_⟩
    obtain ⟨d, hd, rfl⟩ := List.mem_map.1 (hperm.mem_iff.1 he)
    exact ih d hd (h.2 d hd)

theorem everywhere_strings {strings : List String} :
    Everywhere IsWritable (stringsToml strings) := by
  refine everywhere_array.2 ⟨trivial, fun v hv => ?_⟩
  obtain ⟨s, -, rfl⟩ := List.mem_map.1 hv
  trivial

end Toml.Value

namespace FieldConfig

def entries (c : FieldConfig) : List (String × Value) :=
  ("name", .string c.name) ::
    entryOf "column" .string c.column ++
    entryOf "operators" stringsToml c.operators ++
    entryOf "exclude_operators" stringsToml c.excludedOperators ++
    entryOf "values" (fun values => .array (values.map Value.arranged)) c.values ++
    entryOf "types" stringsToml c.types ++
    entryOf "join" Join.toToml c.join

theorem toToml_eq (c : FieldConfig) : c.toToml = .table c.entries := rfl

theorem lookup_entries (c : FieldConfig) :
    c.entries.lookup "name" = some (.string c.name) ∧
      c.entries.lookup "column" = c.column.map .string ∧
      c.entries.lookup "operators" = c.operators.map stringsToml ∧
      c.entries.lookup "exclude_operators" = c.excludedOperators.map stringsToml ∧
      c.entries.lookup "values" = c.values.map (fun values => .array (values.map Value.arranged)) ∧
      c.entries.lookup "types" = c.types.map stringsToml ∧
      c.entries.lookup "join" = c.join.map Join.toToml := by
  simp [entries, List.lookup_append, lookup_entryOf, lookup_cons_eq]

theorem keysDistinct_entries (c : FieldConfig) : KeysDistinct c.entries := by
  have hkeys : (c.entries.map Prod.fst).Sublist
      (["name", "column"] ++ ["operators"] ++ ["exclude_operators"] ++ ["values"] ++ ["types"] ++
        ["join"]) := by
    refine keys_append (keys_append (keys_append (keys_append (keys_append ?_ ?_) ?_) ?_) ?_) ?_
    · exact (keys_entryOf ..).cons_cons "name"
    all_goals exact keys_entryOf ..
  exact keysDistinct_of_sublist hkeys (by decide)

theorem everywhere_toToml {c : FieldConfig}
    (hvalues : ∀ values, c.values = some values → ∀ v ∈ values, Everywhere IsWritable v) :
    Everywhere IsWritable c.toToml := by
  have hstrings {key : String} {o : Option (List String)} {e : String × Value}
      (he : e ∈ entryOf key stringsToml o) : Everywhere IsWritable e.2 := by
    obtain ⟨strings, -, rfl⟩ := mem_entryOf he
    exact Value.everywhere_strings
  rw [toToml_eq, Value.everywhere_table]
  refine ⟨c.keysDistinct_entries, fun e he => ?_⟩
  simp only [entries, List.mem_append, List.mem_cons, or_assoc] at he
  rcases he with rfl | he | he | he | he | he | he
  · trivial
  · obtain ⟨column, -, rfl⟩ := mem_entryOf he
    trivial
  · exact hstrings he
  · exact hstrings he
  · obtain ⟨values, hsome, rfl⟩ := mem_entryOf he
    refine Value.everywhere_array.2 ⟨trivial, fun v hv => ?_⟩
    obtain ⟨w, hw, rfl⟩ := List.mem_map.1 hv
    exact Value.everywhere_arranged (hvalues values hsome w hw)
  · exact hstrings he
  · obtain ⟨join, -, rfl⟩ := mem_entryOf he
    have hkeys : (["table", "first", "operator", "second", "kind"] : List String).Nodup := by decide
    refine Value.everywhere_table.2 ⟨keysDistinct_of_sublist (.refl _) hkeys, ?_⟩
    simp only [List.forall_mem_cons, Everywhere, IsWritable]
    exact ⟨trivial, trivial, trivial, trivial, trivial, List.forall_mem_nil _⟩

end FieldConfig

namespace Config

/-- What a configuration is like if it was read and holds no NaN. -/
structure IsSavable (c : Config) : Prop where
  small : c.maxDepth < 2 ^ 63
  values : ∀ f ∈ c.fields, ∀ values, f.values = some values →
    ∀ v ∈ values, Everywhere IsRead v ∧ v.holdsNaN = false

def operatorsToml (operators : List (String × String)) : Value :=
  .table (mapValues Value.string operators)

def fieldsToml (fields : List FieldConfig) : Value := .array (fields.map FieldConfig.toToml)

theorem toToml_eq (c : Config) : c.toToml =
    [("strict", .boolean c.strict), ("max_depth", .integer (Int64.ofNat c.maxDepth))] ++
      entryOf "remove_operators" stringsToml (unlessEmpty c.removedOperators) ++
      entryOf "operators" operatorsToml (unlessEmpty c.operators) ++
      entryOf "fields" fieldsToml (unlessEmpty c.fields) := by
  rw [entryOf_unlessEmpty, entryOf_unlessEmpty, entryOf_unlessEmpty]
  rfl

theorem keysDistinct_toToml (c : Config) : KeysDistinct c.toToml := by
  have hkeys : (c.toToml.map Prod.fst).Sublist
      (["strict", "max_depth"] ++ ["remove_operators"] ++ ["operators"] ++ ["fields"]) := by
    rw [toToml_eq]
    refine keys_append (keys_append (keys_append ?_ ?_) ?_) ?_
    · exact .refl _
    all_goals exact keys_entryOf ..
  exact keysDistinct_of_sublist hkeys (by decide)

theorem eq_of_unlessEmpty {α : Type} {xs ys : List α} (h : unlessEmpty xs = some ys) : ys = xs := by
  rw [unlessEmpty, Option.ite_none_left_eq_some] at h
  exact (Option.some.inj h.2).symm

theorem everywhere_toToml {c : Config} (h : c.IsSavable) :
    Everywhere IsWritable (.table c.toToml) := by
  rw [Value.everywhere_table]
  refine ⟨c.keysDistinct_toToml, fun e he => ?_⟩
  simp only [toToml_eq, List.mem_append, List.mem_cons, List.not_mem_nil, or_false, or_assoc] at he
  rcases he with rfl | rfl | he | he | he
  · trivial
  · trivial
  · obtain ⟨strings, -, rfl⟩ := mem_entryOf he
    exact Value.everywhere_strings
  · obtain ⟨operators, hsome, rfl⟩ := mem_entryOf he
    rw [eq_of_unlessEmpty hsome]
    have hkeys : KeysDistinct c.operators := KeysOrdered.distinct c.operators_ordered
    refine Value.everywhere_table.2 ⟨keysDistinct_mapValues hkeys _, fun e he => ?_⟩
    obtain ⟨d, -, rfl⟩ := List.mem_map.1 he
    trivial
  · obtain ⟨fields, hsome, rfl⟩ := mem_entryOf he
    rw [eq_of_unlessEmpty hsome]
    refine Value.everywhere_array.2 ⟨trivial, fun v hv => ?_⟩
    obtain ⟨f, hf, rfl⟩ := List.mem_map.1 hv
    refine FieldConfig.everywhere_toToml fun values hvalues v hv => ?_
    obtain ⟨hread, hnan⟩ := h.values f hf values hvalues v hv
    exact Value.everywhere_writable hread hnan

section
variable {α : Type} {es : List (String × Value)} {name : String} {read : Value → Option α}

theorem required_ordered {v : Value} {a : α} (hlookup : es.lookup name = some v)
    (hread : read v.ordered = some a) :
    required (Value.orderedEntries es) name read = some a := by
  rw [required, Value.lookup_orderedEntries, hlookup, Option.map_some, Option.bind_some, hread]

theorem withDefault_some {v : Value} {a default : α} (hlookup : es.lookup name = some v)
    (hread : read v.ordered = some a) :
    withDefault (Value.orderedEntries es) name default read = some a := by
  rw [withDefault, Value.lookup_orderedEntries, hlookup]
  exact hread

theorem withDefault_none {default : α} (hlookup : es.lookup name = none) :
    withDefault (Value.orderedEntries es) name default read = some default := by
  rw [withDefault, Value.lookup_orderedEntries, hlookup]
  rfl

theorem optional_ordered {write : α → Value} {o : Option α}
    (hlookup : es.lookup name = o.map write)
    (hread : ∀ a, o = some a → read (write a).ordered = some a) :
    optional (Value.orderedEntries es) name read = some o := by
  cases o with
  | none => exact withDefault_none hlookup
  | some a =>
    refine withDefault_some hlookup ?_
    rw [hread a rfl]
    rfl

/-- A list that is not written is read as the empty list. -/
theorem withDefault_unlessEmpty {β : Type} {write : List β → Value} {xs : List β}
    {read : Value → Option (List β)} (hlookup : es.lookup name = (unlessEmpty xs).map write)
    (hread : read (write xs).ordered = some xs) :
    withDefault (Value.orderedEntries es) name [] read = some xs := by
  cases xs with
  | nil => exact withDefault_none hlookup
  | cons x xs => exact withDefault_some hlookup hread

end

theorem strings?_ordered (strings : List String) :
    (stringsToml strings).ordered.strings? = some strings := by
  have hread : (strings.map Value.string).mapM Value.string? = some (strings.map id) :=
    mapM_map_some fun s _ => rfl
  rw [List.map_id] at hread
  rw [stringsToml, Value.ordered, Value.orderedElements_eq, List.map_map]
  exact hread

theorem join?_ordered (j : Join) : join? j.toToml.ordered = some j := by
  have hname : JoinKind.ofName? j.kind.name = some j.kind := by cases j.kind <;> decide
  rw [Join.toToml]
  generalize hes : [("table", Value.string j.table), ("first", .string j.first),
    ("operator", .string j.operator), ("second", .string j.second),
    ("kind", .string j.kind.name)] = es
  have htable : required (Value.orderedEntries es) "table" Value.string? = some j.table :=
    required_ordered (by rw [← hes]; rfl) rfl
  have hfirst : required (Value.orderedEntries es) "first" Value.string? = some j.first :=
    required_ordered (by rw [← hes]; rfl) rfl
  have hoperator : withDefault (Value.orderedEntries es) "operator" "=" Value.string? =
      some j.operator := withDefault_some (by rw [← hes]; rfl) rfl
  have hsecond : required (Value.orderedEntries es) "second" Value.string? = some j.second :=
    required_ordered (by rw [← hes]; rfl) rfl
  have hkind : withDefault (Value.orderedEntries es) "kind" .inner joinKind? = some j.kind :=
    withDefault_some (v := .string j.kind.name) (by rw [← hes]; rfl) hname
  rw [Value.ordered, join?, Value.record?]
  simp only [Option.bind_eq_bind, Option.bind_some, htable, hfirst, hoperator, hsecond, hkind]
  rfl

theorem array?_arranged {values : List Value} (h : ∀ v ∈ values, v.arranged.ordered = v) :
    (Value.array (values.map Value.arranged)).ordered.array? = some values := by
  have hmap : values.map (Value.ordered ∘ Value.arranged) = values.map id :=
    List.map_congr_left fun v hv => h v hv
  rw [Value.ordered, Value.orderedElements_eq, List.map_map, hmap, List.map_id]
  rfl

theorem field?_ordered {c : FieldConfig}
    (hvalues : ∀ values, c.values = some values → ∀ v ∈ values, v.arranged.ordered = v) :
    field? c.toToml.ordered = some c := by
  obtain ⟨hname, hcolumn, hoperators, hexcluded, hvalues', htypes, hjoin⟩ := c.lookup_entries
  have hstrings {name : String} {o : Option (List String)}
      (hlookup : c.entries.lookup name = o.map stringsToml) :
      optional (Value.orderedEntries c.entries) name Value.strings? = some o :=
    optional_ordered hlookup fun strings _ => strings?_ordered strings
  have hname : required (Value.orderedEntries c.entries) "name" Value.string? = some c.name :=
    required_ordered hname rfl
  have hcolumn : optional (Value.orderedEntries c.entries) "column" Value.string? =
      some c.column := optional_ordered hcolumn fun column _ => rfl
  have hvalues' : optional (Value.orderedEntries c.entries) "values" Value.array? =
      some c.values :=
    optional_ordered hvalues' fun values hsome => array?_arranged (hvalues values hsome)
  have hjoin : optional (Value.orderedEntries c.entries) "join" join? = some c.join :=
    optional_ordered hjoin fun join _ => join?_ordered join
  rw [FieldConfig.toToml_eq, Value.ordered, field?, Value.record?]
  simp only [Option.bind_eq_bind, Option.bind_some, hname, hcolumn, hstrings hoperators,
    hstrings hexcluded, hvalues', hstrings htypes, hjoin]
  rfl

theorem operators?_ordered {operators : List (String × String)}
    (h : operators.Pairwise fun a b => a.1 < b.1) :
    operators? (operatorsToml operators).ordered = some operators := by
  have hordered : Everywhere Value.IsOrdered (operatorsToml operators) := by
    refine Value.everywhere_table.2 ⟨List.Pairwise.map _ (fun _ _ h => h) h, fun e he => ?_⟩
    obtain ⟨d, -, rfl⟩ := List.mem_map.1 he
    trivial
  have hread : (mapValues Value.string operators).mapM
      (fun entry => entry.2.string?.map (entry.1, ·)) = some (operators.map id) :=
    mapM_map_some fun e _ => rfl
  rw [List.map_id] at hread
  rw [Value.ordered_eq_self hordered]
  exact hread

theorem fields?_ordered {fields : List FieldConfig}
    (h : ∀ f ∈ fields, ∀ values, f.values = some values → ∀ v ∈ values, v.arranged.ordered = v) :
    ((fieldsToml fields).ordered.array?.bind fun vs => vs.mapM field?) = some fields := by
  have hread : (fields.map (Value.ordered ∘ FieldConfig.toToml)).mapM field? =
      some (fields.map id) := mapM_map_some fun f hf => field?_ordered (h f hf)
  rw [List.map_id] at hread
  rw [fieldsToml, Value.ordered, Value.orderedElements_eq, List.map_map]
  exact hread

theorem natural?_ofNat {n : Nat} (h : n < 2 ^ 63) :
    (Value.integer (Int64.ofNat n)).natural? = some n := by
  have hvalue : (Int64.ofNat n).toInt = n := Int64.toInt_ofNat_of_lt h
  rw [Value.natural?, hvalue, if_pos (Int.natCast_nonneg n), Int.toNat_natCast]

theorem lookup_toToml (c : Config) :
    c.toToml.lookup "strict" = some (.boolean c.strict) ∧
      c.toToml.lookup "max_depth" = some (.integer (Int64.ofNat c.maxDepth)) ∧
      c.toToml.lookup "remove_operators" =
        (unlessEmpty c.removedOperators).map stringsToml ∧
      c.toToml.lookup "operators" = (unlessEmpty c.operators).map operatorsToml ∧
      c.toToml.lookup "fields" = (unlessEmpty c.fields).map fieldsToml := by
  simp [toToml_eq, List.lookup_append, lookup_entryOf, lookup_cons_eq]

theorem ordered_arranged_of_read {v : Value} (h : Everywhere IsRead v) :
    v.arranged.ordered = v := by
  have hordered : Everywhere Value.IsOrdered v := h.mono fun v hv => by
    cases v with
    | table es => exact hv
    | _ => trivial
  rw [Value.ordered_arranged (hordered.mono fun _ => Value.IsOrdered.distinct),
    Value.ordered_eq_self hordered]

theorem ofTable?_toToml {c : Config} (h : c.IsSavable) :
    ofTable? (Value.orderedEntries c.toToml) = some c := by
  obtain ⟨hstrict, hdepth, hremoved, hoperators, hfields⟩ := c.lookup_toToml
  have hstrict : withDefault (Value.orderedEntries c.toToml) "strict" ParseOptions.default.strict
      Value.boolean? = some c.strict := withDefault_some hstrict rfl
  have hdepth : withDefault (Value.orderedEntries c.toToml) "max_depth"
      ParseOptions.default.maxDepth Value.natural? = some c.maxDepth :=
    withDefault_some hdepth (natural?_ofNat h.small)
  have hremoved : withDefault (Value.orderedEntries c.toToml) "remove_operators" []
      Value.strings? = some c.removedOperators :=
    withDefault_unlessEmpty hremoved (strings?_ordered c.removedOperators)
  have hoperators : withDefault (Value.orderedEntries c.toToml) "operators" [] operators? =
      some c.operators :=
    withDefault_unlessEmpty hoperators (operators?_ordered c.operators_ordered)
  have hfields : withDefault (Value.orderedEntries c.toToml) "fields" []
      (fun v => v.array?.bind (·.mapM field?)) = some c.fields :=
    withDefault_unlessEmpty hfields (fields?_ordered fun f hf values hsome v hv =>
      ordered_arranged_of_read (h.values f hf values hsome v hv).1)
  rw [ofTable?]
  simp only [Option.bind_eq_bind, Option.bind_some, hstrict, hdepth, hremoved, hoperators, hfields,
    dif_pos c.operators_ordered]
  rfl

theorem withDefault_cases {α : Type} {parts : Parts} {name : String} {default a : α}
    {read : Value → Option α} (h : withDefault parts name default read = some a) :
    a = default ∨ ∃ v, (name, v) ∈ parts ∧ read v = some a := by
  rw [withDefault] at h
  split at h
  · exact .inl (Option.some.inj h).symm
  · next v hlookup =>
    obtain ⟨front, after, hparts, -⟩ := List.lookup_eq_some_iff.1 hlookup
    exact .inr ⟨v, by rw [hparts]; simp, h⟩

theorem natural?_lt {v : Value} {n : Nat} (h : v.natural? = some n) : n < 2 ^ 63 := by
  cases v with
  | integer i =>
    rw [Value.natural?, Option.ite_none_right_eq_some] at h
    have hlt := i.toInt_lt
    have hn := Option.some.inj h.2
    omega
  | _ => cases h

theorem everywhere_record {names : List String} {v : Value} {parts : Parts}
    (h : Everywhere IsRead v) (hparts : v.record? names = some parts) :
    ∀ e ∈ parts, Everywhere IsRead e.2 := by
  cases v with
  | table es =>
    cases hparts
    exact (Value.everywhere_table.1 h).2
  | array vs =>
    cases hparts
    exact fun e he => (Value.everywhere_array.1 h).2 e.2 (List.of_mem_zip he).2
  | _ => cases hparts

/-- The values of a field that was read are like all values that are read. -/
theorem values_of_field? {v : Value} {f : FieldConfig} (h : Everywhere IsRead v)
    (hf : field? v = some f) {values : List Value} (hvalues : f.values = some values) :
    ∀ w ∈ values, Everywhere IsRead w := by
  simp only [field?, Option.bind_eq_bind, Option.bind_eq_some_iff] at hf
  obtain ⟨parts, hparts, name, -, column, -, operators, -, excluded, -, values', hread, types, -,
    join, -, hf⟩ := hf
  cases hf
  have hsome : values' = some values := hvalues
  rw [hsome] at hread
  rcases withDefault_cases hread with hnone | ⟨w, hw, hread⟩
  · cases hnone
  · obtain ⟨vs, harray, hvs⟩ := Option.map_eq_some_iff.1 hread
    cases hvs
    have hw := everywhere_record h hparts _ hw
    cases w with
    | array vs =>
      cases harray
      exact (Value.everywhere_array.1 hw).2
    | _ => cases harray

theorem mem_of_mapM_eq_some {α β : Type} {read : α → Option β} {xs : List α} {ys : List β}
    (h : xs.mapM read = some ys) : ∀ y ∈ ys, ∃ x ∈ xs, read x = some y := by
  induction xs generalizing ys with
  | nil =>
    cases h
    exact List.forall_mem_nil _
  | cons x xs ih =>
    simp only [List.mapM_cons, Option.bind_eq_bind, Option.bind_eq_some_iff] at h
    obtain ⟨y, hy, ys, hys, h⟩ := h
    cases h
    refine List.forall_mem_cons.2 ⟨⟨x, List.mem_cons_self .., hy⟩, fun z hz => ?_⟩
    obtain ⟨w, hw, hread⟩ := ih hys z hz
    exact ⟨w, List.mem_cons_of_mem _ hw, hread⟩

theorem isSavable_of_ofTable? {parts : Parts} {c : Config}
    (hparts : ∀ e ∈ parts, Everywhere IsRead e.2) (h : ofTable? parts = some c)
    (hnan : c.holdsNaN = false) : c.IsSavable := by
  simp only [ofTable?, Option.bind_eq_bind, Option.bind_eq_some_iff] at h
  obtain ⟨strict, -, maxDepth, hdepth, removed, -, operators, -, fields, hfields, h⟩ := h
  split at h
  · cases h
    refine ⟨?_, fun f hf values hvalues v hv => ⟨?_, ?_⟩⟩
    · rcases withDefault_cases hdepth with hdefault | ⟨v, -, hread⟩
      · exact hdefault ▸ (by decide : ParseOptions.default.maxDepth < 2 ^ 63)
      · exact natural?_lt hread
    · rcases withDefault_cases hfields with hdefault | ⟨w, hw, hread⟩
      · rw [hdefault] at hf
        cases hf
      · obtain ⟨vs, harray, hvs⟩ := Option.bind_eq_some_iff.1 hread
        obtain ⟨u, hu, hfield⟩ := mem_of_mapM_eq_some hvs f hf
        have hw := hparts _ hw
        cases w with
        | array us =>
          cases harray
          exact values_of_field? ((Value.everywhere_array.1 hw).2 u hu) hfield hvalues v hv
        | _ => cases harray
    · rw [holdsNaN, List.any_eq_false] at hnan
      have hfield := hnan f hf
      rw [hvalues, Option.getD_some, Value.anyNaN_eq, Bool.not_eq_true, List.any_eq_false] at hfield
      exact Bool.eq_false_iff.2 (hfield v hv)
  · cases h

theorem read_eq_ok {s : String} {c : Config} (h : Config.read s = .ok c) :
    ∃ parts, Toml.read s = some (.table parts) ∧ ofTable? parts = some c ∧ c.maxDepth ≠ 0 := by
  unfold Config.read at h
  split at h
  · next parts hparts =>
    split at h
    · next c' hc =>
      split at h
      · cases h
      · next hpositive =>
        cases h
        exact ⟨parts, hparts, hc, hpositive⟩
    · cases h
  · cases h

theorem isSavable_of_read {s : String} {c : Config} (h : Config.read s = .ok c)
    (hnan : c.holdsNaN = false) : c.IsSavable := by
  obtain ⟨parts, hparts, hc, -⟩ := read_eq_ok h
  exact isSavable_of_ofTable? (Value.everywhere_table.1 (everywhere_read hparts)).2 hc hnan

theorem read_text_toml {c : Config} (h : c.IsSavable) :
    Toml.read c.text =
      if (documentStatements c.toToml).all Statement.fits then
        some (.table (Value.orderedEntries c.toToml)) else none :=
  read_document (everywhere_toToml h)

/-- The text is refused only for a statement that is nested too deeply. -/
theorem isSome_read_text_iff {c : Config} (h : c.IsSavable) :
    (Toml.read c.text).isSome ↔ (documentStatements c.toToml).all Statement.fits = true := by
  rw [read_text_toml h]
  split
  · next hfits => exact ⟨fun _ => hfits, fun _ => rfl⟩
  · next hfits => exact ⟨fun hsome => absurd hsome Bool.false_ne_true, fun h => absurd h hfits⟩

/-- A configuration that was read and holds no NaN is found again in its own text, given that
the reader of documents takes what the writer of documents has written. So it is found again
exactly if none of the statements that are written is nested too deeply for that reader. -/
theorem read_saved {s : String} {c : Config} (h : Config.read s = .ok c)
    (hnan : c.holdsNaN = false) :
    ((Toml.read c.text).isSome → Config.read c.text = .ok c) ∧
      (Config.read c.text = .ok c ↔ (documentStatements c.toToml).all Statement.fits = true) := by
  have hsavable := isSavable_of_read h hnan
  have hfound (hsome : (Toml.read c.text).isSome) : Config.read c.text = .ok c := by
    obtain ⟨-, -, -, hpositive⟩ := read_eq_ok h
    have htext := read_text_toml hsavable
    rw [if_pos ((isSome_read_text_iff hsavable).1 hsome)] at htext
    rw [Config.read, htext]
    dsimp only
    rw [ofTable?_toToml hsavable]
    dsimp only
    rw [if_neg hpositive]
  refine ⟨hfound, fun hread => ?_, fun hfits => hfound ((isSome_read_text_iff hsavable).2 hfits)⟩
  obtain ⟨parts, hparts, -⟩ := read_eq_ok hread
  exact (isSome_read_text_iff hsavable).1 (hparts ▸ rfl)

/-- An absent list of operators and an empty one are both found again, beside values that are
nested and names that need quotes. -/
theorem read_saved_operators : ∃ (s : String) (c : Config), Config.read s = .ok c ∧
    c.fields.map FieldConfig.operators = [none, some []] ∧ c.holdsNaN = false ∧
    (Toml.read c.text).isSome ∧ Config.read c.text = .ok c := by
  obtain ⟨s, c, hread, hoperators, hnan, hfits⟩ : ∃ (s : String) (c : Config),
      Config.read s = .ok c ∧ c.fields.map FieldConfig.operators = [none, some []] ∧
      c.holdsNaN = false ∧ (documentStatements c.toToml).all Statement.fits = true :=
    ⟨"operators = \x7b'=' = 'IS'\x7d\n[[fields]]\nname = 'id'\n" ++
      "[[fields]]\nname = 'a b'\noperators = []\nvalues = [[\x7ba = 1979-05-27\x7d]]\n",
      ⟨ParseOptions.default.strict, ParseOptions.default.maxDepth, [], [("=", "IS")],
        [⟨"id", none, none, none, none, none, none⟩,
        ⟨"a b", none, some [], none,
          some [.array [.table [("a", .dateTime (.date ⟨1979, 5, 27⟩))]]], none, none⟩],
        by decide⟩,
      by cbv, rfl, by cbv, by cbv⟩
  have haccepted := (isSome_read_text_iff (isSavable_of_read hread hnan)).2 hfits
  exact ⟨s, c, hread, hoperators, hnan, haccepted, (read_saved hread hnan).1 haccepted⟩

end Config

end Sift

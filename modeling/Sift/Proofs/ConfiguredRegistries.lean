import Mathlib.Data.List.Forall2
import Sift.Config
import Sift.Proofs.Emission
import Sift.Proofs.OrderedTables

/-!
# Registries of a configuration

An operator is looked up first among the operators of the configuration and then among the
default ones, unless it was removed from these. A field is what the last entry of its name
describes, and nothing of the entries before it is left. But every entry has to describe a
field, also one that a later entry replaces, and the first that does not is the error.

An entry `Describes` a field that has its parts. `FirstFailure` is the first entry that
describes none, and `LastEntry` the last one of a name.
-/

namespace Sift

namespace OperatorRegistry

/-- No symbol is written twice, so the only entry of a symbol is also the last one. -/
theorem get?_insert_entries {entries : List (String × String)}
    (h : entries.Pairwise fun a b => a.1 < b.1) (r : OperatorRegistry) (symbol : String) :
    (entries.foldl (fun r (symbol, sql) => r.insert symbol (.fixed sql)) r).get? symbol =
      match entries.lookup symbol with
      | some sql => some (.fixed sql)
      | none => r.get? symbol := by
  induction entries generalizing r with
  | nil => rfl
  | cons e entries ih =>
    obtain ⟨first, sql⟩ := e
    obtain ⟨hfirst, hrest⟩ := List.pairwise_cons.1 h
    rw [List.foldl_cons, ih hrest, get?_insert, Toml.lookup_cons_eq]
    by_cases heq : first = symbol
    · have hnone : entries.lookup symbol = none := by
        refine List.lookup_eq_none_iff.2 fun entry hentry => ?_
        have hlt := hfirst entry hentry
        rw [bne_iff_ne, ← heq]
        exact fun hsame => String.lt_irrefl _ (hsame ▸ hlt)
      rw [hnone, if_pos heq, if_pos heq.symm]
    · rw [if_neg heq, if_neg (Ne.symm heq)]

end OperatorRegistry

theorem bind_eq_ok_iff {ε α β : Type} {x : Except ε α} {f : α → Except ε β} {b : β} :
    (x >>= f) = .ok b ↔ ∃ a, x = .ok a ∧ f a = .ok b := by
  cases x with
  | error err => simp [bind, Except.bind]
  | ok a => simp [bind, Except.bind]

theorem mapM_eq_ok_iff {ε α β : Type} {f : α → Except ε β} {xs : List α} {ys : List β} :
    xs.mapM f = .ok ys ↔ List.Forall₂ (fun x y => f x = .ok y) xs ys := by
  induction xs generalizing ys with
  | nil => simp [pure, Except.pure, eq_comm]
  | cons x xs ih =>
    simp only [List.mapM_cons, bind_eq_ok_iff, pure, Except.pure, Except.ok.injEq,
      List.forall₂_cons_left_iff, ih]
    constructor
    · rintro ⟨y, hy, others, hothers, rfl⟩
      exact ⟨y, others, hy, hothers, rfl⟩
    · rintro ⟨y, others, hy, hothers, rfl⟩
      exact ⟨y, hy, others, hothers, rfl⟩

namespace FieldConfig

theorem traverse_eq_ok_iff {α β : Type} {f : α → Except Error β} {o : Option α} {o' : Option β} :
    traverse f o = .ok o' ↔ Option.Rel (fun a b => f a = .ok b) o o' := by
  cases o with
  | none => cases o' <;> simp [traverse]
  | some a =>
    cases hf : f a with
    | error err => cases o' <;> simp [traverse, hf, Except.map]
    | ok b => cases o' <;> simp [traverse, hf, Except.map]

def UnionsGive (unions : List String) (types : List ValueType) : Prop :=
  ∃ parts, List.Forall₂ (fun union part => ValueType.union union = .ok part) unions parts ∧
    types = parts.flatten

theorem typesOfUnions_eq_ok_iff {unions : List String} {types : List ValueType} :
    typesOfUnions unions = .ok types ↔ UnionsGive unions types := by
  simp only [UnionsGive, ← mapM_eq_ok_iff]
  rw [typesOfUnions]
  cases unions.mapM ValueType.union with
  | error err => simp [Except.map, Except.mapError]
  | ok parts => simp [Except.map, Except.mapError, eq_comm]

/-- The field has the parts of the entry: each value as its literal, the types of all unions in
order, and the join as one of a table. -/
structure Describes (c : FieldConfig) (f : Field) : Prop where
  name : f.name = c.name
  column : f.column = c.column
  operators : f.operators = c.operators
  excludedOperators : f.excludedOperators = c.excludedOperators
  values : Option.Rel (List.Forall₂ fun v l => literal c.name v = .ok l) c.values f.values
  types : Option.Rel UnionsGive c.types f.types
  join : f.join = c.join.map .table

theorem toField_eq_ok_iff {c : FieldConfig} {f : Field} : c.toField = .ok f ↔ c.Describes f := by
  have hvalues {values : Option (List Literal)} :
      traverse (·.mapM (literal c.name)) c.values = .ok values ↔
        Option.Rel (List.Forall₂ fun v l => literal c.name v = .ok l) c.values values := by
    simp only [traverse_eq_ok_iff, mapM_eq_ok_iff]
  have htypes {types : Option (List ValueType)} :
      traverse typesOfUnions c.types = .ok types ↔ Option.Rel UnionsGive c.types types := by
    simp only [traverse_eq_ok_iff, typesOfUnions_eq_ok_iff]
  unfold toField
  cases hnamed : Field.named c.name with
  | error err =>
    have hname := (Field.named_eq_error_iff.1 hnamed).1
    refine iff_of_false nofun fun h => ?_
    rw [← h.name, f.name_valid] at hname
    cases hname
  | ok field =>
    have hname := (Field.named_eq_ok_iff.1 hnamed).1
    simp only [bind_eq_ok_iff, hvalues, htypes, pure, Except.pure, Except.ok.injEq]
    constructor
    · rintro ⟨values, hv, types, ht, rfl⟩
      exact ⟨hname, rfl, rfl, rfl, hv, ht, rfl⟩
    · intro h
      refine ⟨f.values, h.values, f.types, h.types, ?_⟩
      obtain ⟨name, column, operators, excluded, values, types, join, hvalid⟩ := f
      obtain ⟨rfl, rfl, rfl, rfl, -, -, rfl⟩ := h
      simp [hname]

theorem name_of_toField {c : FieldConfig} {f : Field} (h : c.toField = .ok f) : f.name = c.name :=
  (toField_eq_ok_iff.1 h).name

end FieldConfig

namespace FieldRegistry

theorem map_name_toList (r : FieldRegistry) : r.toList.map (·.name) = r.fields.keys := by
  rw [toList, List.map_map, ← Std.TreeMap.map_fst_toList_eq_keys]
  refine List.map_congr_left fun entry hentry => ?_
  exact r.named _ _ (Std.TreeMap.mem_toList_iff_getElem?_eq_some.1 hentry)

theorem mem_map_name_toList {r : FieldRegistry} {name : String} :
    name ∈ r.toList.map (·.name) ↔ ∃ f, r.get? name = some f := by
  rw [map_name_toList, Std.TreeMap.mem_keys, Std.TreeMap.mem_iff_isSome_getElem?,
    Option.isSome_iff_exists]
  rfl

theorem nodup_map_name_toList (r : FieldRegistry) : (r.toList.map (·.name)).Nodup := by
  rw [map_name_toList]
  exact Std.TreeMap.nodup_keys

end FieldRegistry

namespace Config

/-- The first entry that describes no field, and why it describes none. -/
def FirstFailure (entries : List FieldConfig) (err : Error) : Prop :=
  ∃ before f after, entries = before ++ f :: after ∧
    (∀ g ∈ before, ∃ field, g.toField = .ok field) ∧ f.toField = .error err

def LastEntry (entries : List FieldConfig) (name : String) (f : FieldConfig) : Prop :=
  ∃ before after, entries = before ++ f :: after ∧ f.name = name ∧ ∀ g ∈ after, g.name ≠ name

variable {entries : List FieldConfig} {r : FieldRegistry} {err : Error} {name : String}

theorem firstFailure_cons {f : FieldConfig} : FirstFailure (f :: entries) err ↔
    f.toField = .error err ∨ (∃ field, f.toField = .ok field) ∧ FirstFailure entries err := by
  constructor
  · rintro ⟨before, g, after, heq, hbefore, herror⟩
    cases before with
    | nil =>
      obtain ⟨rfl, rfl⟩ := List.cons.inj heq
      exact .inl herror
    | cons first before =>
      obtain ⟨rfl, rfl⟩ := List.cons.inj heq
      obtain ⟨hfirst, hothers⟩ := List.forall_mem_cons.1 hbefore
      exact .inr ⟨hfirst, before, g, after, rfl, hothers, herror⟩
  · rintro (herror | ⟨hfield, before, g, after, rfl, hbefore, herror⟩)
    · exact ⟨[], f, entries, rfl, List.forall_mem_nil _, herror⟩
    · exact ⟨f :: before, g, after, rfl, List.forall_mem_cons.2 ⟨hfield, hbefore⟩, herror⟩

theorem exists_firstFailure_iff :
    (∃ err, FirstFailure entries err) ↔ ∃ f ∈ entries, ∃ err, f.toField = .error err := by
  induction entries with
  | nil => simp [FirstFailure]
  | cons f entries ih =>
    simp only [firstFailure_cons, List.mem_cons, exists_eq_or_imp, ← ih]
    cases f.toField <;> simp

theorem lastEntry_cons {f g : FieldConfig} : LastEntry (f :: entries) name g ↔
    LastEntry entries name g ∨ f = g ∧ f.name = name ∧ ∀ h ∈ entries, h.name ≠ name := by
  constructor
  · rintro ⟨before, after, heq, hname, hafter⟩
    cases before with
    | nil =>
      obtain ⟨rfl, rfl⟩ := List.cons.inj heq
      exact .inr ⟨rfl, hname, hafter⟩
    | cons first before =>
      obtain ⟨rfl, rfl⟩ := List.cons.inj heq
      exact .inl ⟨before, after, rfl, hname, hafter⟩
  · rintro (⟨before, after, rfl, hname, hafter⟩ | ⟨rfl, hname, hothers⟩)
    · exact ⟨f :: before, after, rfl, hname, hafter⟩
    · exact ⟨[], entries, rfl, hname, hothers⟩

theorem exists_lastEntry_iff : (∃ f, LastEntry entries name f) ↔ name ∈ entries.map (·.name) := by
  induction entries with
  | nil => simp [LastEntry]
  | cons f entries ih =>
    simp only [lastEntry_cons, exists_or, ih, List.map_cons, List.mem_cons]
    constructor
    · rintro (hmem | ⟨g, rfl, hname, -⟩)
      · exact .inr hmem
      · exact .inl hname.symm
    · by_cases hmem : name ∈ entries.map (·.name)
      · exact fun _ => .inl hmem
      · rintro (hname | hmem')
        · exact .inr ⟨f, rfl, hname.symm, fun h hh heq => hmem (heq ▸ List.mem_map_of_mem hh)⟩
        · exact absurd hmem' hmem

def registerAll (r : FieldRegistry) (entries : List FieldConfig) : Except Error FieldRegistry :=
  entries.foldlM (fun r f => f.toField.map r.insert) r

theorem registerAll_cons (r : FieldRegistry) (f : FieldConfig) (entries : List FieldConfig) :
    registerAll r (f :: entries) =
      match f.toField with
      | .error err => .error err
      | .ok field => registerAll (r.insert field) entries := by
  rw [registerAll, List.foldlM_cons]
  cases f.toField <;> rfl

theorem registerAll_eq_error_iff :
    registerAll r entries = .error err ↔ FirstFailure entries err := by
  induction entries generalizing r with
  | nil =>
    have hok : registerAll r [] = .ok r := rfl
    simp [hok, FirstFailure]
  | cons f entries ih =>
    rw [registerAll_cons, firstFailure_cons]
    cases hfield : f.toField with
    | error other => simp
    | ok field => simp [ih]

/-- What is registered under a name is what the last entry of the name describes, or what was
registered before if the name does not occur. -/
theorem get?_of_registerAll {r' : FieldRegistry} (h : registerAll r entries = .ok r')
    {field : Field} : r'.get? name = some field ↔
      (∃ f, LastEntry entries name f ∧ f.toField = .ok field) ∨
        (name ∉ entries.map (·.name) ∧ r.get? name = some field) := by
  induction entries generalizing r with
  | nil =>
    cases h
    simp [LastEntry]
  | cons f entries ih =>
    rw [registerAll_cons] at h
    cases hfield : f.toField with
    | error err => simp [hfield] at h
    | ok first =>
      rw [hfield] at h
      have hname : first.name = f.name := FieldConfig.name_of_toField hfield
      have hnone : (∀ g ∈ entries, g.name ≠ name) ↔ name ∉ entries.map (·.name) := by simp
      simp only [ih h, FieldRegistry.get?_insert, hname, lastEntry_cons, or_and_right, exists_or,
        List.map_cons, List.mem_cons, not_or, hnone]
      rw [or_assoc]
      refine or_congr_right ?_
      by_cases hmem : name ∈ entries.map (·.name)
      · simp [hmem]
      · by_cases hf : f.name = name
        · simp [hf, hmem, hfield]
        · simp [hf, hmem, Ne.symm hf]

/-- The operators of the configuration come first, then the default ones that are left. -/
theorem get?_operatorRegistry (c : Config) (symbol : String) :
    c.operatorRegistry.get? symbol =
      match c.operators.lookup symbol with
      | some sql => some (.fixed sql)
      | none =>
        if symbol ∈ OperatorRegistry.defaultSymbols ∧ symbol ∉ c.removedOperators then
          some (.fixed symbol)
        else none := by
  have hkept : (c.removedOperators.foldl OperatorRegistry.erase .default).get? symbol =
      if symbol ∈ OperatorRegistry.defaultSymbols ∧ symbol ∉ c.removedOperators then
        some (.fixed symbol)
      else none := by
    rw [OperatorRegistry.get?_foldl (fun _ => none) OperatorRegistry.get?_erase,
      OperatorRegistry.get?_default_eq]
    by_cases hremoved : symbol ∈ c.removedOperators
    · simp [hremoved]
    · simp [hremoved]
  rw [operatorRegistry, OperatorRegistry.get?_insert_entries c.operators_ordered, hkept]

theorem mem_names_iff {c : Config} (h : c.fieldRegistry = .ok r) :
    name ∈ r.toList.map (·.name) ↔ name ∈ c.fields.map (·.name) := by
  have hget {field : Field} : r.get? name = some field ↔ _ := get?_of_registerAll h
  rw [FieldRegistry.mem_map_name_toList, ← exists_lastEntry_iff]
  simp only [hget, FieldRegistry.get?_empty, reduceCtorEq, and_false, or_false]
  refine ⟨fun ⟨_, f, hlast, _⟩ => ⟨f, hlast⟩, fun ⟨f, hlast⟩ => ?_⟩
  cases hfield : f.toField with
  | ok field => exact ⟨field, f, hlast, hfield⟩
  | error err =>
    -- an entry that describes no field would have been the error
    obtain ⟨before, after, hentries, -⟩ := hlast
    have hmem : f ∈ c.fields := by simp [hentries]
    obtain ⟨first, hfirst⟩ := exists_firstFailure_iff.2 ⟨f, hmem, err, hfield⟩
    have herror : c.fieldRegistry = .error first := registerAll_eq_error_iff.2 hfirst
    cases h.symm.trans herror

/-- Both registries answer as the configuration says. The registry of fields exists exactly if
every entry describes a field, and it holds one field for each name, which is what the last
entry of the name describes. -/
theorem registries_as_written (c : Config) :
    (∀ symbol, c.operatorRegistry.get? symbol =
      match c.operators.lookup symbol with
      | some sql => some (.fixed sql)
      | none =>
        if symbol ∈ OperatorRegistry.defaultSymbols ∧ symbol ∉ c.removedOperators then
          some (.fixed symbol)
        else none) ∧
    ((∃ err, c.fieldRegistry = .error err) ↔ ∃ f ∈ c.fields, ∃ err, f.toField = .error err) ∧
    (∀ err, c.fieldRegistry = .error err ↔ FirstFailure c.fields err) ∧
    ∀ r, c.fieldRegistry = .ok r →
      (∀ name field, r.get? name = some field ↔
        ∃ f, LastEntry c.fields name f ∧ f.toField = .ok field) ∧
      (r.toList.map (·.name)).Nodup ∧
      ∀ name, name ∈ r.toList.map (·.name) ↔ name ∈ c.fields.map (·.name) := by
  have hfailure (err : Error) : c.fieldRegistry = .error err ↔ FirstFailure c.fields err :=
    registerAll_eq_error_iff
  refine ⟨c.get?_operatorRegistry, ?_, hfailure, fun r hr => ⟨fun name field => ?_,
    r.nodup_map_name_toList, fun name => mem_names_iff hr⟩⟩
  · simp only [hfailure, exists_firstFailure_iff]
  · rw [get?_of_registerAll hr, FieldRegistry.get?_empty]
    simp

def typed (name : String) (types : List String) : FieldConfig :=
  ⟨name, none, none, none, none, some types, none⟩

/-- The last entry counts as a whole, with its values as literals, but the ones before it are
checked. A removed operator that is written again has its new meaning. -/
theorem registries_as_written_twice :
    let c : Config := ⟨false, 8, ["<", "="], [("=", "<=>"), ("~", "LIKE")],
      [⟨"a", some "x", some ["="], none, none, none, none⟩, typed "b" [], typed "a" ["int"],
        ⟨"c", some "y", none, some ["<"],
          some [.string "n", .integer 3, .boolean true, .dateTime (.date ⟨1979, 5, 27⟩)],
          some ["date|null", "int"], some ⟨"t", "x", "=", "y", .left⟩⟩],
      by decide⟩
    let c' : Config := { c with fields := [typed "a" ["date|uuid"], typed "b c" [], typed "a" []] }
    c.operatorRegistry.get? "=" = some (.fixed "<=>") ∧ c.operatorRegistry.get? "<" = none ∧
      c.operatorRegistry.get? ">" = some (.fixed ">") ∧
      (∃ r, c.fieldRegistry = .ok r ∧
        r.get? "a" = some ⟨"a", none, none, none, none, some [.int], none, by decide⟩ ∧
        r.get? "c" = some ⟨"c", some "y", none, some ["<"],
          some [.string "n", .int 3, .bool true, .string "1979-05-27"],
          some [.date, .null, .int], some (.table ⟨"t", "x", "=", "y", .left⟩), by decide⟩ ∧
        "b" ∈ r.toList.map (·.name)) ∧
      c'.fieldRegistry = .error (.registry (.unknownValueType "uuid")) := by
  intro c c'
  obtain ⟨hoperators, hfails, -, hfields⟩ := c.registries_as_written
  obtain ⟨-, -, hfirst, -⟩ := c'.registries_as_written
  have hc : (c.fields[3]).toField = .ok ⟨"c", some "y", none, some ["<"],
      some [.string "n", .int 3, .bool true, .string "1979-05-27"],
      some [.date, .null, .int], some (.table ⟨"t", "x", "=", "y", .left⟩), by decide⟩ := by
    have htext : String.ofList (Toml.DateTime.date ⟨1979, 5, 27⟩).text = "1979-05-27" := by
      decide +kernel
    have hdate : FieldConfig.literal "c" (.dateTime (.date ⟨1979, 5, 27⟩)) =
        .ok (.string "1979-05-27") := by
      rw [FieldConfig.literal, htext]
    refine FieldConfig.toField_eq_ok_iff.2 ⟨rfl, rfl, rfl, rfl, .some ?_, .some ?_, rfl⟩
    · exact .cons rfl (.cons rfl (.cons rfl (.cons hdate .nil)))
    · exact ⟨[[.date, .null], [.int]], .cons rfl (.cons rfl .nil), rfl⟩
  have hgood : ∀ f ∈ c.fields, ∃ field, f.toField = .ok field := by
    simp only [c, List.forall_mem_cons]
    refine ⟨?_, ?_, ?_, ⟨_, hc⟩, List.forall_mem_nil _⟩
    · exact ⟨⟨"a", some "x", some ["="], none, none, none, none, by decide⟩, by rfl⟩
    · exact ⟨⟨"b", none, none, none, none, some [], none, by decide⟩, by rfl⟩
    · exact ⟨⟨"a", none, none, none, none, some [.int], none, by decide⟩, by rfl⟩
  obtain ⟨r, hr⟩ : ∃ r, c.fieldRegistry = .ok r := by
    cases h : c.fieldRegistry with
    | ok r => exact ⟨r, rfl⟩
    | error err =>
      obtain ⟨f, hf, other, herror⟩ := hfails.1 ⟨err, h⟩
      obtain ⟨field, hfield⟩ := hgood f hf
      cases hfield.symm.trans herror
  obtain ⟨hget, -, hnames⟩ := hfields r hr
  refine ⟨?_, ?_, ?_, ⟨r, hr, (hget _ _).2 ⟨typed "a" ["int"], ?_, by rfl⟩,
    (hget _ _).2 ⟨c.fields[3], ?_, hc⟩, ?_⟩, ?_⟩
  · exact (hoperators "=").trans rfl
  · exact (hoperators "<").trans rfl
  · exact (hoperators ">").trans rfl
  · exact ⟨[_, typed "b" []], [_], rfl, rfl, by simp⟩
  · exact ⟨[_, typed "b" [], typed "a" ["int"]], [], rfl, rfl, List.forall_mem_nil _⟩
  · exact (hnames "b").2 (by decide)
  · exact (hfirst _).2 ⟨[], _, _, rfl, List.forall_mem_nil _, by rfl⟩

end Config

end Sift

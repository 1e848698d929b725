import Sift.Proofs.OrderedTables

/-!
# The table that a document defines

A document writes the plain entries of a table, then a section for each table below it
and one for each element of an array of tables. Read back, every entry ends up in the
table that it came from: a header opens the table of its path and no other, and what an
earlier section has put there stays.

`Places` says of sections that they put their entries into the table that is open at their
path, and `PlacesEntry` says it of the sections of one entry.
-/

namespace Sift.Toml

namespace Table

variable {t : Table}

@[simp] theorem origin_insert (t : Table) (key : String) (item : Item) :
    (t.insert key item).origin = t.origin := rfl

@[simp] theorem entries_insert (t : Table) (key : String) (item : Item) :
    (t.insert key item).entries = insertEntry key item t.entries := rfl

theorem get?_insert_self (t : Table) (key : String) (item : Item) :
    (t.insert key item).get? key = some item := by
  rw [get?, entries_insert, lookup_insertEntry, if_pos rfl]

theorem insert_insert (t : Table) (key : String) (item item' : Item) :
    (t.insert key item).insert key item' = t.insert key item' :=
  congrArg (Table.mk t.origin) (insertEntry_insertEntry key item' item t.entries)

theorem update_append (dotted : Bool) (f : Table → Option Table) (path path' : List String)
    (t : Table) :
    t.update dotted f (path ++ path') = t.update dotted (update dotted f path') path := by
  induction path generalizing t with
  | nil => rfl
  | cons key path ih => simp only [List.cons_append, update, ih]

/-- At the path there is the table `t`, and `put` puts another one in its place. -/
structure Opens (root : Table) (path : List String) (t : Table) (put : Table → Table) : Prop where
  update_eq : ∀ f, root.update false f path = (f t).map put
  update_put : ∀ t', t'.origin = t.origin → ∀ f, (put t').update false f path = (f t').map put

namespace Opens

variable {root : Table} {path : List String} {put : Table → Table}

theorem here (t : Table) : Opens t [] t id :=
  ⟨fun f => by rw [Option.map_id]; rfl, fun t' _ f => by rw [Option.map_id]; rfl⟩

theorem changed (h : Opens root path t put) {t' : Table} (horigin : t'.origin = t.origin) :
    Opens (put t') path t' put :=
  ⟨h.update_put t' horigin, fun t'' horigin' => h.update_put t'' (horigin'.trans horigin)⟩

theorem update_put_table (h : Opens root path t put) (key : String) (sub : Table)
    (f : Table → Option Table) :
    (put (t.insert key (.table sub.origin sub.entries))).update false f (path ++ [key]) =
      (f sub).map fun sub => put (t.insert key (.table sub.origin sub.entries)) := by
  rw [update_append, h.update_put _ (origin_insert ..)]
  simp only [update, get?_insert_self, Bool.false_and, Bool.false_eq_true, if_false, insert_insert,
    Option.map_map]
  rfl

/-- A table is opened below one that is open. -/
theorem table (h : Opens root path t put) {key : String} {sub : Table}
    (hget : t.get? key = some (.table sub.origin sub.entries)) :
    Opens root (path ++ [key]) sub
      fun sub => put (t.insert key (.table sub.origin sub.entries)) := by
  refine ⟨fun f => ?_, fun sub' _ f => h.update_put_table key sub' f⟩
  rw [update_append, h.update_eq]
  simp only [update, hget, Bool.false_and, Bool.false_eq_true, if_false, Option.map_map]
  rfl

/-- A table that is not there is made when it is opened. -/
theorem implied (h : Opens root path t put) {key : String} (hget : t.get? key = none) :
    Opens root (path ++ [key]) (empty .implied)
      fun sub => put (t.insert key (.table sub.origin sub.entries)) := by
  refine ⟨fun f => ?_, fun sub' _ f => h.update_put_table key sub' f⟩
  rw [update_append, h.update_eq]
  simp only [update, hget, Bool.false_eq_true, if_false, Option.map_map]
  rfl

/-- An array of tables leads to its latest element. -/
theorem element (h : Opens root path t put) {key : String} {latest : List (String × Item)}
    {earlier : List (List (String × Item))} (hget : t.get? key = some (.tables latest earlier)) :
    Opens root (path ++ [key]) ⟨.declared, latest⟩
      fun sub => put (t.insert key (.tables sub.entries earlier)) := by
  refine ⟨fun f => ?_, fun sub horigin f => ?_⟩
  · rw [update_append, h.update_eq]
    simp only [update, hget, Option.map_map]
    rfl
  · have hdeclared : sub.origin = .declared := horigin
    have hsub : (⟨.declared, sub.entries⟩ : Table) = sub := by rw [← hdeclared]
    rw [update_append, h.update_put _ (origin_insert ..)]
    simp only [update, get?_insert_self, insert_insert, Option.map_map, hsub]
    rfl

end Opens

theorem assign_single {key : String} (v : Value) (horigin : t.origin ≠ .dotted)
    (hget : t.get? key = none) : t.assign [key] v = some (t.insert key (.value v)) := by
  simp [assign, update, horigin, hget]

theorem declare_append (root : Table) (path : List String) (key : String) :
    root.declare (path ++ [key]) =
      root.update false (fun t => t.declare [key]) path := by
  simp only [declare, List.getLast?_append, List.getLast?_singleton, Option.some_or,
    List.dropLast_concat, List.dropLast_singleton, update]

theorem declareElement_append (root : Table) (path : List String) (key : String) :
    root.declareElement (path ++ [key]) =
      root.update false (fun t => t.declareElement [key]) path := by
  simp only [declareElement, List.getLast?_append, List.getLast?_singleton, Option.some_or,
    List.dropLast_concat, List.dropLast_singleton, update]

theorem declare_single {key : String} (hget : t.get? key = none) :
    t.declare [key] = some (t.insert key (.table .declared [])) := by
  simp [declare, update, hget]

theorem declareElement_single_new {key : String} (hget : t.get? key = none) :
    t.declareElement [key] = some (t.insert key (.tables [] [])) := by
  simp [declareElement, update, hget]

theorem declareElement_single {key : String} {latest : List (String × Item)}
    {earlier : List (List (String × Item))} (hget : t.get? key = some (.tables latest earlier)) :
    t.declareElement [key] = some (t.insert key (.tables [] (latest :: earlier))) := by
  simp [declareElement, update, hget]

def values (t : Table) : List (String × Value) := mapValues Item.toValue t.entries

theorem get?_eq_none_iff (t : Table) (key : String) :
    t.get? key = none ↔ t.values.lookup key = none := by
  rw [get?, values, lookup_mapValues, Option.map_eq_none_iff]

theorem values_insert (t : Table) (key : String) (item : Item) :
    (t.insert key item).values = insertEntry key item.toValue t.values :=
  mapValues_insertEntry Item.toValue key item t.entries

end Table

namespace Item

theorem entriesToValue_eq (entries : List (String × Item)) :
    entriesToValue entries = mapValues toValue entries := by
  induction entries with
  | nil => rfl
  | cons e entries ih =>
    obtain ⟨key, item⟩ := e
    rw [entriesToValue, ih]
    rfl

theorem elementsToValue_eq (earlier : List (List (String × Item))) (done : List Value) :
    elementsToValue earlier done =
      (earlier.map fun entries => Value.table (mapValues toValue entries)).reverse ++ done := by
  induction earlier generalizing done with
  | nil => rfl
  | cons entries earlier ih =>
    rw [elementsToValue, ih, entriesToValue_eq, List.map_cons, List.reverse_cons, List.append_assoc]
    rfl

theorem toValue_table (t : Table) : toValue (.table t.origin t.entries) = .table t.values := by
  rw [toValue, entriesToValue_eq, Table.values]

theorem toValue_tables (latest : List (String × Item)) (earlier : List (List (String × Item))) :
    toValue (.tables latest earlier) =
      .array ((latest :: earlier).map fun entries =>
        Value.table (mapValues toValue entries)).reverse := by
  rw [toValue, elementsToValue_eq, entriesToValue_eq, List.map_cons, List.reverse_cons]

end Item

theorem Table.toValue_eq (t : Table) : t.toValue = .table t.values := by
  rw [Table.toValue, Item.entriesToValue_eq, Table.values]

def Statement.ordered : Statement → Statement
  | .entry path v => .entry path v.ordered
  | statement => statement

@[simp] theorem Statement.ordered_entry (path : List String) (v : Value) :
    (Statement.entry path v).ordered = .entry path v.ordered := rfl

@[simp] theorem Statement.ordered_header (path : List String) :
    (Statement.header path).ordered = .header path := rfl

@[simp] theorem Statement.ordered_elementHeader (path : List String) :
    (Statement.elementHeader path).ordered = .elementHeader path := rfl

namespace Section

def runAll (s : Section) (statements : List Statement) : Option Section :=
  (statements.map Statement.ordered).foldlM run s

@[simp] theorem runAll_nil (s : Section) : s.runAll [] = some s := rfl

theorem runAll_cons (s : Section) (first : Statement) (others : List Statement) :
    s.runAll (first :: others) = (s.run first.ordered).bind fun s => s.runAll others := rfl

theorem runAll_append (s : Section) (statements others : List Statement) :
    s.runAll (statements ++ others) = (s.runAll statements).bind fun s => s.runAll others := by
  rw [runAll, List.map_append, List.foldlM_append]
  rfl

end Section

/-- The entries that are written in sections of their own. -/
def sectioned (entries : List (String × Value)) : List (String × Value) :=
  entries.filter fun e => e.2.isSectioned

def unsectioned (entries : List (String × Value)) : List (String × Value) :=
  entries.filter fun e => !e.2.isSectioned

def entryStatements (entries : List (String × Value)) : List Statement :=
  entries.map fun e => .entry [e.1] e.2

mutual

def sectionStatements (path : List String) : List (String × Value) → List Statement
  | [] => []
  | (key, .table entries) :: others =>
    (if needsHeader entries then
        .header (path ++ [key]) :: entryStatements (unsectioned entries) else []) ++
      sectionStatements (path ++ [key]) entries ++ sectionStatements path others
  | (key, .array elements) :: others =>
    (if (Value.array elements).isSectioned then elementStatements (path ++ [key]) elements
      else []) ++ sectionStatements path others
  | _ :: others => sectionStatements path others

def elementStatements (path : List String) : List Value → List Statement
  | [] => []
  | .table entries :: others =>
    .elementHeader path :: entryStatements (unsectioned entries) ++
      (sectionStatements path entries ++ elementStatements path others)
  | _ :: others => elementStatements path others

end

def documentStatements (entries : List (String × Value)) : List Statement :=
  entryStatements (unsectioned entries) ++ sectionStatements [] entries

open Table (Opens)

variable {root t : Table} {path : List String} {put : Table → Table}

theorem runAll_entries {entries : List (String × Value)} (h : Opens root path t put)
    (hroot : root = put t) (horigin : t.origin ≠ .dotted) (hdistinct : KeysDistinct entries)
    (hnew : ∀ e ∈ entries, t.get? e.1 = none) :
    ∃ t', Section.runAll ⟨root, path⟩ (entryStatements entries) = some ⟨put t', path⟩ ∧
      t'.origin = t.origin ∧ t'.values = insertAll (mapValues Value.ordered entries) t.values := by
  induction entries generalizing root t with
  | nil => exact ⟨t, by rw [hroot]; rfl, rfl, rfl⟩
  | cons e entries ih =>
    obtain ⟨key, v⟩ := e
    obtain ⟨hfirst, hrest⟩ := List.pairwise_cons.1 hdistinct
    obtain ⟨hkey, hkeys⟩ := List.forall_mem_cons.1 hnew
    have hstep : Section.run ⟨root, path⟩ (.entry [key] v.ordered) =
        some ⟨put (t.insert key (.value v.ordered)), path⟩ := by
      rw [Section.run, h.update_eq, Table.assign_single _ horigin hkey]
      rfl
    have hnew' : ∀ e ∈ entries, (t.insert key (.value v.ordered)).get? e.1 = none := by
      intro e he
      rw [Table.get?, Table.entries_insert, lookup_insertEntry, if_neg (hfirst e he).symm]
      exact hkeys e he
    obtain ⟨t', hrun, horigin', hvalues⟩ :=
      ih (h.changed (Table.origin_insert ..)) rfl horigin hrest hnew'
    refine ⟨t', ?_, horigin', ?_⟩
    · rw [entryStatements, List.map_cons, Section.runAll_cons, Statement.ordered_entry,
        hstep, Option.bind_some]
      exact hrun
    · rw [hvalues, Table.values_insert]
      rfl

/-- The sections put their entries into the table that is open at the path. An open table
that is not there is made by the first of them. -/
def Places (entries : List (String × Value)) : Prop :=
  ∀ ⦃root t : Table⦄ ⦃path : List String⦄ ⦃put : Table → Table⦄ (p : List String),
    Opens root path t put → (∀ e ∈ sectioned entries, t.get? e.1 = none) →
      ∃ root' t' p', Section.runAll ⟨root, p⟩ (sectionStatements path entries) = some ⟨root', p'⟩ ∧
        t'.origin = t.origin ∧
        t'.values = insertAll (mapValues Value.ordered (sectioned entries)) t.values ∧
        (root' = put t' ∨ sectioned entries = [] ∧ root' = root ∧ t' = t)

theorem unsectioned_append_sectioned_perm (entries : List (String × Value)) :
    (unsectioned entries ++ sectioned entries).Perm entries := by
  have hsplit := List.filter_append_perm (fun e : String × Value => !e.2.isSectioned) entries
  simp only [Bool.not_not] at hsplit
  exact hsplit

theorem keysDistinct_split {entries : List (String × Value)} (h : KeysDistinct entries) :
    KeysDistinct (unsectioned entries ++ sectioned entries) :=
  h.perm (unsectioned_append_sectioned_perm entries).symm fun hne => hne.symm

theorem insertAll_unsectioned_sectioned {entries : List (String × Value)}
    (h : KeysDistinct entries) :
    insertAll (mapValues Value.ordered (sectioned entries))
      (insertAll (mapValues Value.ordered (unsectioned entries)) []) =
      Value.orderedEntries entries := by
  rw [← insertAll_append, mapValues, mapValues, ← List.map_append, Value.orderedEntries_eq h]
  exact insertAll_perm ((unsectioned_append_sectioned_perm entries).map _)
    (keysDistinct_mapValues (keysDistinct_split h) _) []

/-- The contents of a table: its own lines, then the sections below it. -/
theorem runAll_contents {entries : List (String × Value)} (hplaces : Places entries)
    (hdistinct : KeysDistinct entries) (h : Opens root path t put) (hroot : root = put t)
    (horigin : t.origin ≠ .dotted) (hempty : t.values = []) :
    ∃ t' p', Section.runAll ⟨root, path⟩
        (entryStatements (unsectioned entries) ++ sectionStatements path entries) =
        some ⟨put t', p'⟩ ∧
      t'.origin = t.origin ∧ t'.values = Value.orderedEntries entries := by
  subst hroot
  obtain ⟨hlines, -, hapart⟩ := List.pairwise_append.1 (keysDistinct_split hdistinct)
  have hnone (key : String) : t.get? key = none := by
    rw [Table.get?_eq_none_iff, hempty]
    rfl
  obtain ⟨t₁, hrun₁, horigin₁, hvalues₁⟩ :=
    runAll_entries h rfl horigin hlines fun e _ => hnone e.1
  rw [hempty] at hvalues₁
  have hnew : ∀ e ∈ sectioned entries, t₁.get? e.1 = none := by
    intro e he
    have hlookup : (unsectioned entries).lookup e.1 = none :=
      List.lookup_eq_none_iff.2 fun d hd => by simpa using (hapart d hd e he).symm
    rw [Table.get?_eq_none_iff, hvalues₁, lookup_insertAll (keysDistinct_mapValues hlines _),
      lookup_mapValues, hlookup]
    rfl
  obtain ⟨root', t', p', hrun, horigin', hvalues, hroot⟩ := hplaces path (h.changed horigin₁) hnew
  have hroot' : root' = put t' := by
    rcases hroot with hroot | ⟨-, hroot, ht'⟩
    · exact hroot
    · rw [hroot, ht']
  refine ⟨t', p', ?_, horigin'.trans horigin₁, ?_⟩
  · rw [Section.runAll_append, hrun₁, Option.bind_some, hrun, hroot']
  · rw [hvalues, hvalues₁, insertAll_unsectioned_sectioned hdistinct]

/-- A table below the one that is open, with a header or without. -/
theorem runAll_table {entries : List (String × Value)} (hplaces : Places entries)
    (hdistinct : KeysDistinct entries) (h : Opens root path t put) {key : String}
    (hget : t.get? key = none) (p : List String) :
    ∃ (sub : Table) (p' : List String), Section.runAll ⟨root, p⟩
        ((if needsHeader entries then
            .header (path ++ [key]) :: entryStatements (unsectioned entries) else []) ++
          sectionStatements (path ++ [key]) entries) =
        some ⟨put (t.insert key (.table sub.origin sub.entries)), p'⟩ ∧
      sub.values = Value.orderedEntries entries := by
  by_cases hheader : needsHeader entries = true
  · rw [if_pos hheader]
    have hstep : Section.run ⟨root, p⟩ (.header (path ++ [key])) =
        some ⟨put (t.insert key (.table .declared [])), path ++ [key]⟩ := by
      rw [Section.run, Table.declare_append, h.update_eq, Table.declare_single hget]
      rfl
    have hget' : (t.insert key (.table .declared [])).get? key =
        some (.table (Table.empty .declared).origin (Table.empty .declared).entries) :=
      Table.get?_insert_self ..
    have hopens := (h.changed (Table.origin_insert t key (.table .declared []))).table hget'
    simp only [Table.insert_insert] at hopens
    obtain ⟨sub, p', hrun, -, hvalues⟩ := runAll_contents hplaces hdistinct hopens rfl nofun rfl
    refine ⟨sub, p', ?_, hvalues⟩
    rw [List.cons_append, Section.runAll_cons, Statement.ordered_header, hstep, Option.bind_some,
      hrun]
  · rw [if_neg hheader, List.nil_append]
    have hall : sectioned entries = entries ∧ entries ≠ [] := by
      simp only [needsHeader, Bool.or_eq_true, List.isEmpty_iff, List.any_eq_true, not_or,
        not_exists, not_and, Bool.not_eq_true', Bool.not_eq_false] at hheader
      exact ⟨List.filter_eq_self.2 hheader.2, hheader.1⟩
    obtain ⟨root', sub, p', hrun, -, hvalues, hroot⟩ := hplaces p (h.implied hget) fun e _ => rfl
    have hroot' := hroot.resolve_right fun hnil => hall.2 (hall.1 ▸ hnil.1)
    refine ⟨sub, p', by rw [hrun, hroot'], ?_⟩
    rw [hvalues, hall.1, Value.orderedEntries_eq hdistinct]
    rfl

/-- The elements of an array of tables below the table that is open, after those that are
there already. -/
theorem runAll_elements {elements : List Value} (hsome : elements ≠ [])
    (htables : ∀ v ∈ elements, ∃ es, v = .table es ∧ Places es ∧ KeysDistinct es)
    (h : Opens root path t put) {key : String} {done : List (List (String × Item))}
    (hget : t.declareElement [key] = some (t.insert key (.tables [] done))) (p : List String) :
    ∃ (latest : List (String × Item)) (earlier : List (List (String × Item))) (p' : List String),
      Section.runAll ⟨root, p⟩ (elementStatements (path ++ [key]) elements) =
        some ⟨put (t.insert key (.tables latest earlier)), p'⟩ ∧
      ((latest :: earlier).map fun entries =>
          Value.table (mapValues Item.toValue entries)).reverse =
        (done.map fun entries => Value.table (mapValues Item.toValue entries)).reverse ++
          elements.map Value.ordered := by
  induction elements generalizing root t done p with
  | nil => exact absurd rfl hsome
  | cons v others ih =>
    obtain ⟨⟨es, rfl, hplaces, hdistinct⟩, hothers⟩ := List.forall_mem_cons.1 htables
    have hstep : Section.run ⟨root, p⟩ (.elementHeader (path ++ [key])) =
        some ⟨put (t.insert key (.tables [] done)), path ++ [key]⟩ := by
      rw [Section.run, Table.declareElement_append, h.update_eq, hget]
      rfl
    have hopens := (h.changed (Table.origin_insert t key (.tables [] done))).element
      (Table.get?_insert_self ..)
    simp only [Table.insert_insert] at hopens
    obtain ⟨sub, p₁, hrun, -, hvalues⟩ :=
      runAll_contents hplaces hdistinct hopens rfl nofun rfl
    have hfirst (statements : List Statement) : Section.runAll ⟨root, p⟩
        (.elementHeader (path ++ [key]) :: (entryStatements (unsectioned es) ++
          sectionStatements (path ++ [key]) es) ++ statements) =
        Section.runAll ⟨put (t.insert key (.tables sub.entries done)), p₁⟩ statements := by
      rw [Section.runAll_append, Section.runAll_cons, Statement.ordered_elementHeader, hstep,
        Option.bind_some, hrun, Option.bind_some]
    have helements : elementStatements (path ++ [key]) (.table es :: others) =
        .elementHeader (path ++ [key]) :: (entryStatements (unsectioned es) ++
          sectionStatements (path ++ [key]) es) ++ elementStatements (path ++ [key]) others := by
      simp only [elementStatements, List.cons_append, List.append_assoc]
    rw [helements, hfirst]
    have hopens' := h.changed (Table.origin_insert t key (.tables sub.entries done))
    have hdone : Value.table (mapValues Item.toValue sub.entries) = Value.ordered (.table es) :=
      congrArg Value.table hvalues
    cases others with
    | nil =>
      refine ⟨sub.entries, done, p₁, ?_, by simp [hdone]⟩
      rw [elementStatements, Section.runAll_nil]
    | cons next others =>
      have hget' : (t.insert key (.tables sub.entries done)).declareElement [key] =
          some ((t.insert key (.tables sub.entries done)).insert key
            (.tables [] (sub.entries :: done))) :=
        Table.declareElement_single (Table.get?_insert_self ..)
      obtain ⟨latest, earlier, p', hrun', hvalues'⟩ :=
        ih (List.cons_ne_nil _ _) hothers hopens' hget' p₁
      refine ⟨latest, earlier, p', ?_, ?_⟩
      · rw [hrun', Table.insert_insert]
      · rw [hvalues']
        simp [hdone]

theorem places_nil : Places [] := by
  intro root t path put p h hnew
  refine ⟨root, t, p, ?_, rfl, rfl, .inr ⟨rfl, rfl, rfl⟩⟩
  rw [sectionStatements, Section.runAll_nil]

theorem Places.cons_unsectioned {key : String} {v : Value} {others : List (String × Value)}
    (h : Places others) (hv : v.isSectioned = false)
    (hstatements : ∀ path, sectionStatements path ((key, v) :: others) =
      sectionStatements path others) : Places ((key, v) :: others) := by
  have hsectioned : sectioned ((key, v) :: others) = sectioned others := by
    rw [sectioned, List.filter_cons, if_neg (by simp [hv]), sectioned]
  intro root t path put p hopens hnew
  rw [hsectioned] at hnew ⊢
  rw [hstatements]
  exact h p hopens hnew

def PlacesEntry (key : String) (v : Value) (statements : List String → List Statement) : Prop :=
  ∀ ⦃root t : Table⦄ ⦃path : List String⦄ ⦃put : Table → Table⦄ (p : List String),
    Opens root path t put → t.get? key = none →
      ∃ item p', Section.runAll ⟨root, p⟩ (statements path) = some ⟨put (t.insert key item), p'⟩ ∧
        item.toValue = v.ordered

theorem Places.cons_sectioned {key : String} {v : Value} {others : List (String × Value)}
    (h : Places others) (hkey : ∀ e ∈ others, key ≠ e.1) (hv : v.isSectioned = true)
    {first : List String → List Statement} (hfirst : PlacesEntry key v first)
    (hstatements : ∀ path, sectionStatements path ((key, v) :: others) =
      first path ++ sectionStatements path others) : Places ((key, v) :: others) := by
  have hsectioned : sectioned ((key, v) :: others) = (key, v) :: sectioned others := by
    rw [sectioned, List.filter_cons, if_pos hv, sectioned]
  intro root t path put p hopens hnew
  rw [hsectioned] at hnew ⊢
  obtain ⟨hnewKey, hnewOthers⟩ := List.forall_mem_cons.1 hnew
  obtain ⟨item, p₁, hrun₁, hitem⟩ := hfirst p hopens hnewKey
  have hnew' : ∀ e ∈ sectioned others, (t.insert key item).get? e.1 = none := by
    intro e he
    rw [Table.get?, Table.entries_insert, lookup_insertEntry,
      if_neg (hkey e (List.mem_filter.1 he |>.1)).symm]
    exact hnewOthers e he
  obtain ⟨root', t', p', hrun, horigin, hvalues, hroot⟩ :=
    h p₁ (hopens.changed (Table.origin_insert t key item)) hnew'
  refine ⟨root', t', p', ?_, horigin, ?_, .inl ?_⟩
  · rw [hstatements, Section.runAll_append, hrun₁, Option.bind_some, hrun]
  · rw [hvalues, Table.values_insert, hitem]
    rfl
  · rcases hroot with hroot | ⟨-, hroot, ht'⟩
    · exact hroot
    · rw [hroot, ht']

theorem placesEntry_table {entries : List (String × Value)} (hplaces : Places entries)
    (hdistinct : KeysDistinct entries) (key : String) :
    PlacesEntry key (.table entries) fun path =>
      (if needsHeader entries then
          .header (path ++ [key]) :: entryStatements (unsectioned entries) else []) ++
        sectionStatements (path ++ [key]) entries := by
  intro root t path put p h hget
  obtain ⟨sub, p', hrun, hvalues⟩ := runAll_table hplaces hdistinct h hget p
  refine ⟨.table sub.origin sub.entries, p', hrun, ?_⟩
  rw [Item.toValue_table, hvalues, Value.ordered]

theorem placesEntry_array {elements : List Value} (hsome : elements ≠ [])
    (htables : ∀ v ∈ elements, ∃ es, v = .table es ∧ Places es ∧ KeysDistinct es) (key : String) :
    PlacesEntry key (.array elements) fun path => elementStatements (path ++ [key]) elements := by
  intro root t path put p h hget
  obtain ⟨latest, earlier, p', hrun, hvalues⟩ :=
    runAll_elements hsome htables h (Table.declareElement_single_new hget) p
  refine ⟨.tables latest earlier, p', hrun, ?_⟩
  rw [Item.toValue_tables, hvalues, Value.ordered, Value.orderedElements_eq]
  rfl

theorem places_of_sections {entries : List (String × Value)} (hdistinct : KeysDistinct entries)
    (h : ∀ e ∈ entries, ∀ es, Value.SectionOf es e.2 → Places es ∧ KeysDistinct es) :
    Places entries := by
  induction entries with
  | nil => exact places_nil
  | cons e others ih =>
    obtain ⟨key, v⟩ := e
    obtain ⟨hkey, hrest⟩ := List.pairwise_cons.1 hdistinct
    obtain ⟨hbelow, hothers⟩ := List.forall_mem_cons.1 h
    have hplaces := ih hrest hothers
    cases v with
    | table es =>
      obtain ⟨hes, hes'⟩ := hbelow es rfl
      refine hplaces.cons_sectioned hkey rfl (placesEntry_table hes hes' key) fun path => ?_
      rw [sectionStatements]
    | array vs =>
      cases hsectioned : (Value.array vs).isSectioned with
      | false =>
        refine hplaces.cons_unsectioned hsectioned fun path => ?_
        rw [sectionStatements, hsectioned, if_neg Bool.false_ne_true, List.nil_append]
      | true =>
        have hsome : vs ≠ [] := by
          rintro rfl
          exact Bool.false_ne_true hsectioned
        have htables : ∀ v ∈ vs, ∃ es, v = .table es ∧ Places es ∧ KeysDistinct es := by
          intro v hv
          have hall : vs.all Value.isTable = true := by
            unfold Value.isSectioned at hsectioned
            split at hsectioned
            all_goals simp_all
          have hv' := List.all_eq_true.1 hall v hv
          cases v with
          | table es => exact ⟨es, rfl, hbelow es hv⟩
          | _ => exact absurd hv' Bool.false_ne_true
        refine hplaces.cons_sectioned hkey hsectioned (placesEntry_array hsome htables key)
          fun path => ?_
        rw [sectionStatements, hsectioned, if_pos rfl]
    | _ =>
      refine hplaces.cons_unsectioned rfl fun path => ?_
      rw [sectionStatements]
      all_goals
        intro _ _ heq
        cases heq

theorem places {entries : List (String × Value)}
    (h : Value.Everywhere Value.IsDistinct (.table entries)) :
    Places entries ∧ KeysDistinct entries := by
  induction entries using Value.sections_induction with
  | step es ih =>
    have hkeys : KeysDistinct es := (Value.everywhere_table.1 h).1
    exact ⟨places_of_sections hkeys fun e he below hbelow =>
      ih e he below hbelow (Value.everywhere_sectionOf h he hbelow), hkeys⟩

/-- The statements of a document define the table that it was written for. -/
theorem tableOfStatements_document {entries : List (String × Value)}
    (h : Value.Everywhere Value.IsDistinct (.table entries)) :
    tableOfStatements ((documentStatements entries).map Statement.ordered) =
      some (.table (Value.orderedEntries entries)) := by
  obtain ⟨hplaces, hdistinct⟩ := places h
  obtain ⟨t, p, hrun, -, hvalues⟩ :=
    runAll_contents hplaces hdistinct (Opens.here (.empty .declared)) rfl nofun rfl
  have hdocument : Section.start.runAll (documentStatements entries) = some ⟨t, p⟩ := hrun
  rw [Section.runAll] at hdocument
  rw [tableOfStatements, hdocument, Option.map_some, Table.toValue_eq, hvalues]

/-- Pairs of single keys define the table of the pairs. -/
theorem tableOfPairs_single {entries : List (String × Value)} (h : KeysDistinct entries) :
    tableOfPairs (entries.map fun e => ([e.1], e.2.ordered)) =
      some (.table (Value.orderedEntries entries)) := by
  have hstart := Opens.here (.empty .declared)
  obtain ⟨t, hrun, -, hvalues⟩ := runAll_entries hstart rfl nofun h fun e _ => rfl
  have hpairs : tableOfPairs (entries.map fun e => ([e.1], e.2.ordered)) =
      tableOfStatements ((entryStatements entries).map Statement.ordered) := by
    rw [tableOfPairs, entryStatements, List.map_map, List.map_map]
    rfl
  have hdocument : Section.start.runAll (entryStatements entries) = some ⟨t, []⟩ := hrun
  rw [Section.runAll] at hdocument
  rw [hpairs, tableOfStatements, hdocument, Option.map_some, Table.toValue_eq, hvalues,
    Value.orderedEntries_eq h]
  rfl

end Sift.Toml

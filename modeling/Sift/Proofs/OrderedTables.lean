import Sift.Config.Printer
import Sift.Toml.Document

/-!
# Tables with their keys in order

A table that was read has its keys in order, wherever it stands inside a value. Entries
with distinct keys can be put into a table one after another in any order, and a value
with all its tables in order is the same whatever order they were in before.

`insertAll` puts entries into their places one after another, `ordered` has the keys of all
tables in a value in order, and `Everywhere` is a property of a value and of everything inside
it.
-/

namespace Sift.Toml

variable {α β : Type}

theorem lookup_cons_eq (k key : String) (value : α) (entries : List (String × α)) :
    ((key, value) :: entries).lookup k = if k = key then some value else entries.lookup k := by
  rw [List.lookup_cons]
  by_cases h : k = key
  · rw [beq_iff_eq.2 h, if_pos h]
  · rw [beq_eq_false_iff_ne.2 h, if_neg h]

theorem lookup_insertEntry (key : String) (value : α) (entries : List (String × α)) (k : String) :
    (insertEntry key value entries).lookup k =
      if k = key then some value else entries.lookup k := by
  induction entries with
  | nil => exact lookup_cons_eq k key value []
  | cons e entries ih =>
    obtain ⟨k', v⟩ := e
    rw [insertEntry]
    split
    · exact lookup_cons_eq ..
    · split
      · next heq =>
        rw [lookup_cons_eq, lookup_cons_eq, heq]
        split
        · rfl
        · rfl
      · next hne =>
        rw [lookup_cons_eq, lookup_cons_eq, ih]
        by_cases hkey : k = key
        · rw [if_pos hkey, if_pos hkey, if_neg fun h => hne (hkey.symm.trans h)]
        · rw [if_neg hkey, if_neg hkey]

theorem insertEntry_insertEntry (key : String) (v w : α) (entries : List (String × α)) :
    insertEntry key v (insertEntry key w entries) = insertEntry key v entries := by
  induction entries with
  | nil => simp [insertEntry]
  | cons e entries ih =>
    obtain ⟨k, x⟩ := e
    by_cases hlt : key < k
    · simp [insertEntry, hlt]
    · by_cases heq : key = k
      · simp [insertEntry, heq]
      · simp [insertEntry, hlt, heq, ih]

theorem lt_or_gt_of_ne {a b : String} (h : a ≠ b) : a < b ∨ b < a := by
  by_cases hlt : a < b
  · exact .inl hlt
  · by_cases hgt : b < a
    · exact .inr hgt
    · exact absurd (String.le_antisymm (String.not_lt.1 hgt) (String.not_lt.1 hlt)) h

theorem not_lt_of_lt {a b : String} (h : a < b) : ¬ b < a := fun hlt =>
  String.lt_irrefl a (String.lt_trans h hlt)

theorem insertEntry_comm {key key' : String} (h : key ≠ key') (v w : α)
    (entries : List (String × α)) :
    insertEntry key v (insertEntry key' w entries) =
      insertEntry key' w (insertEntry key v entries) := by
  induction entries with
  | nil =>
    rcases lt_or_gt_of_ne h with hlt | hlt
    · simp [insertEntry, hlt, not_lt_of_lt hlt, h.symm]
    · simp [insertEntry, hlt, not_lt_of_lt hlt, h]
  | cons e entries ih =>
    obtain ⟨k, x⟩ := e
    grind [insertEntry, String.lt_trans]

theorem mem_insertEntry {key : String} {value : α} {entries : List (String × α)} {e : String × α}
    (h : e ∈ insertEntry key value entries) : e = (key, value) ∨ e ∈ entries := by
  induction entries with
  | nil => exact .inl (List.mem_singleton.1 h)
  | cons d entries ih =>
    obtain ⟨k, v⟩ := d
    rw [insertEntry] at h
    split at h
    · exact List.mem_cons.1 h
    · split at h
      · exact (List.mem_cons.1 h).imp id (List.mem_cons_of_mem _)
      · rcases List.mem_cons.1 h with h | h
        · exact .inr (List.mem_cons.2 (.inl h))
        · exact (ih h).imp id (List.mem_cons_of_mem _)

def KeysOrdered (entries : List (String × α)) : Prop := entries.Pairwise fun a b => a.1 < b.1

theorem KeysOrdered.insertEntry {entries : List (String × α)} (h : KeysOrdered entries)
    (key : String) (value : α) : KeysOrdered (insertEntry key value entries) := by
  induction entries with
  | nil => exact List.pairwise_singleton _ _
  | cons e entries ih =>
    obtain ⟨k, v⟩ := e
    obtain ⟨hfirst, hrest⟩ := List.pairwise_cons.1 h
    rw [Toml.insertEntry]
    split
    · next hlt =>
      refine List.pairwise_cons.2 ⟨fun e he => ?_, h⟩
      rcases List.mem_cons.1 he with rfl | he
      · exact hlt
      · exact String.lt_trans hlt (hfirst e he)
    · next hge =>
      split
      · next heq =>
        subst heq
        exact List.pairwise_cons.2 ⟨hfirst, hrest⟩
      · next hne =>
        refine List.pairwise_cons.2 ⟨fun e he => ?_, ih hrest⟩
        rcases mem_insertEntry he with rfl | he
        · exact (lt_or_gt_of_ne hne).resolve_left hge
        · exact hfirst e he

theorem insertEntry_of_lt {key : String} {value : α} {entries : List (String × α)}
    (h : ∀ e ∈ entries, key < e.1) : insertEntry key value entries = (key, value) :: entries := by
  cases entries with
  | nil => rfl
  | cons e entries => rw [insertEntry, if_pos (h e (List.mem_cons_self ..))]

def mapValues (f : α → β) (entries : List (String × α)) : List (String × β) :=
  entries.map fun e => (e.1, f e.2)

theorem mapValues_insertEntry (f : α → β) (key : String) (value : α)
    (entries : List (String × α)) :
    mapValues f (insertEntry key value entries) =
      insertEntry key (f value) (mapValues f entries) := by
  induction entries with
  | nil => rfl
  | cons e entries ih =>
    obtain ⟨k, v⟩ := e
    simp only [mapValues, List.map_cons] at ih ⊢
    rw [insertEntry, insertEntry]
    split
    · rfl
    · split
      · rfl
      · rw [List.map_cons, ih]

theorem lookup_mapValues (f : α → β) (entries : List (String × α)) (key : String) :
    (mapValues f entries).lookup key = (entries.lookup key).map f := by
  induction entries with
  | nil => rfl
  | cons e entries ih =>
    rw [mapValues, List.map_cons, List.lookup_cons, List.lookup_cons]
    split
    · rfl
    · exact ih

def insertAll (new entries : List (String × α)) : List (String × α) :=
  new.foldl (fun es e => insertEntry e.1 e.2 es) entries

@[simp] theorem insertAll_cons (e : String × α) (new entries : List (String × α)) :
    insertAll (e :: new) entries = insertAll new (insertEntry e.1 e.2 entries) := rfl

theorem insertAll_append (new new' entries : List (String × α)) :
    insertAll (new ++ new') entries = insertAll new' (insertAll new entries) :=
  List.foldl_append

def KeysDistinct (entries : List (String × α)) : Prop := entries.Pairwise fun a b => a.1 ≠ b.1

theorem KeysOrdered.distinct {entries : List (String × α)} (h : KeysOrdered entries) :
    KeysDistinct entries := by
  refine List.Pairwise.imp ?_ h
  intro a b hlt heq
  rw [heq] at hlt
  exact String.lt_irrefl b.1 hlt

theorem keysDistinct_mapValues {entries : List (String × α)} (h : KeysDistinct entries)
    (f : α → β) : KeysDistinct (mapValues f entries) := List.Pairwise.map _ (fun _ _ h => h) h

theorem insertAll_insertEntry {key : String} {new : List (String × α)}
    (h : ∀ e ∈ new, key ≠ e.1) (value : α) (entries : List (String × α)) :
    insertAll new (insertEntry key value entries) =
      insertEntry key value (insertAll new entries) := by
  induction new generalizing entries with
  | nil => rfl
  | cons e new ih =>
    obtain ⟨he, hnew⟩ := List.forall_mem_cons.1 h
    rw [insertAll_cons, insertEntry_comm he.symm, ih hnew, insertAll_cons]

theorem insertAll_perm {new new' : List (String × α)} (h : new.Perm new')
    (hdistinct : KeysDistinct new) (entries : List (String × α)) :
    insertAll new entries = insertAll new' entries := by
  induction h generalizing entries with
  | nil => rfl
  | cons e _ ih => exact ih (List.pairwise_cons.1 hdistinct).2 _
  | swap e e' new =>
    have hne : e'.1 ≠ e.1 := (List.pairwise_cons.1 hdistinct).1 e (List.mem_cons_self ..)
    rw [insertAll_cons, insertAll_cons, insertAll_cons, insertAll_cons, insertEntry_comm hne.symm]
  | trans h _ ih ih' =>
    have hdistinct' := hdistinct.perm h (fun hne => hne.symm)
    exact (ih hdistinct entries).trans (ih' hdistinct' entries)

theorem insertAll_eq_self {entries : List (String × α)} (h : KeysOrdered entries) :
    insertAll entries [] = entries := by
  induction entries with
  | nil => rfl
  | cons e entries ih =>
    obtain ⟨hfirst, hrest⟩ := List.pairwise_cons.1 h
    rw [insertAll_cons, insertAll_insertEntry (fun d hd heq =>
      String.lt_irrefl _ (heq ▸ hfirst d hd)), ih hrest, insertEntry_of_lt hfirst]

theorem lookup_insertAll {new : List (String × α)} (hdistinct : KeysDistinct new)
    (entries : List (String × α)) (key : String) :
    (insertAll new entries).lookup key = (new.lookup key).or (entries.lookup key) := by
  induction new generalizing entries with
  | nil => rfl
  | cons e new ih =>
    obtain ⟨k, v⟩ := e
    obtain ⟨hfirst, hrest⟩ := List.pairwise_cons.1 hdistinct
    rw [insertAll_cons, insertAll_insertEntry hfirst, lookup_insertEntry, lookup_cons_eq, ih hrest]
    split
    · rfl
    · rfl

namespace Value

/-- Induction over the elements of arrays and the values of tables. -/
theorem induction {P : Value → Prop}
    (scalar : ∀ v, (∀ vs, v ≠ .array vs) → (∀ es, v ≠ .table es) → P v)
    (array : ∀ vs, (∀ v ∈ vs, P v) → P (.array vs))
    (table : ∀ es : List (String × Value), (∀ e ∈ es, P e.2) → P (.table es)) (v : Value) :
    P v := by
  refine @Value.rec P (fun vs => ∀ v ∈ vs, P v) (fun es => ∀ e ∈ es, P e.2) (fun e => P e.2)
    (fun s => scalar _ nofun nofun) (fun i => scalar _ nofun nofun) (fun x => scalar _ nofun nofun)
    (fun b => scalar _ nofun nofun) (fun d => scalar _ nofun nofun) array table nofun
    (fun v vs hv hvs => List.forall_mem_cons.2 ⟨hv, hvs⟩) nofun
    (fun e es he hes => List.forall_mem_cons.2 ⟨he, hes⟩) (fun k v hv => hv) v

theorem scalar_or_container (v : Value) : (∃ vs, v = .array vs) ∨ (∃ es, v = .table es) ∨
    (∀ vs, v ≠ .array vs) ∧ ∀ es, v ≠ .table es := by
  cases v with
  | array vs => exact .inl ⟨vs, rfl⟩
  | table es => exact .inr (.inl ⟨es, rfl⟩)
  | _ => exact .inr (.inr ⟨nofun, nofun⟩)

mutual

def ordered : Value → Value
  | .array elements => .array (orderedElements elements)
  | .table entries => .table (orderedEntries entries)
  | v => v

def orderedElements : List Value → List Value
  | [] => []
  | v :: vs => ordered v :: orderedElements vs

def orderedEntries : List (String × Value) → List (String × Value)
  | [] => []
  | (key, v) :: entries => insertEntry key (ordered v) (orderedEntries entries)

end

theorem orderedElements_eq (vs : List Value) : orderedElements vs = vs.map ordered := by
  induction vs with
  | nil => rfl
  | cons v vs ih => rw [orderedElements, ih, List.map_cons]

theorem orderedEntries_eq {entries : List (String × Value)} (h : KeysDistinct entries) :
    orderedEntries entries = insertAll (mapValues ordered entries) [] := by
  induction entries with
  | nil => rfl
  | cons e entries ih =>
    obtain ⟨k, v⟩ := e
    obtain ⟨hfirst, hrest⟩ := List.pairwise_cons.1 h
    have hmapped : ∀ e ∈ mapValues ordered entries, k ≠ e.1 := by
      intro e he
      obtain ⟨d, hd, rfl⟩ := List.mem_map.1 he
      exact hfirst d hd
    rw [orderedEntries, ih hrest]
    exact (insertAll_insertEntry hmapped _ []).symm

theorem lookup_orderedEntries (entries : List (String × Value)) (key : String) :
    (orderedEntries entries).lookup key = (entries.lookup key).map ordered := by
  induction entries with
  | nil => rfl
  | cons e entries ih =>
    obtain ⟨k, v⟩ := e
    rw [orderedEntries, lookup_insertEntry, lookup_cons_eq, ih]
    split
    · rfl
    · rfl

mutual

/-- The property holds of the value and of everything inside it. -/
def Everywhere (P : Value → Prop) : Value → Prop
  | .array elements => P (.array elements) ∧ EverywhereElements P elements
  | .table entries => P (.table entries) ∧ EverywhereEntries P entries
  | v => P v

def EverywhereElements (P : Value → Prop) : List Value → Prop
  | [] => True
  | v :: vs => Everywhere P v ∧ EverywhereElements P vs

def EverywhereEntries (P : Value → Prop) : List (String × Value) → Prop
  | [] => True
  | (_, v) :: entries => Everywhere P v ∧ EverywhereEntries P entries

end

variable {P Q : Value → Prop}

theorem everywhere_array {vs : List Value} :
    Everywhere P (.array vs) ↔ P (.array vs) ∧ ∀ v ∈ vs, Everywhere P v := by
  have helements : EverywhereElements P vs ↔ ∀ v ∈ vs, Everywhere P v := by
    induction vs with
    | nil => simp [EverywhereElements]
    | cons v vs ih => rw [EverywhereElements, ih, List.forall_mem_cons]
  rw [Everywhere, helements]

theorem everywhere_table {es : List (String × Value)} :
    Everywhere P (.table es) ↔ P (.table es) ∧ ∀ e ∈ es, Everywhere P e.2 := by
  have hentries : EverywhereEntries P es ↔ ∀ e ∈ es, Everywhere P e.2 := by
    induction es with
    | nil => simp [EverywhereEntries]
    | cons e es ih =>
      obtain ⟨k, v⟩ := e
      rw [EverywhereEntries, ih, List.forall_mem_cons]
  rw [Everywhere, hentries]

theorem everywhere_scalar {v : Value} (harray : ∀ vs, v ≠ .array vs)
    (htable : ∀ es, v ≠ .table es) : Everywhere P v ↔ P v := by
  cases v with
  | array vs => exact absurd rfl (harray vs)
  | table es => exact absurd rfl (htable es)
  | _ => rfl

theorem Everywhere.mono (h : ∀ v, P v → Q v) {v : Value} (hv : Everywhere P v) :
    Everywhere Q v := by
  induction v using Value.induction with
  | scalar v harray htable =>
    rw [everywhere_scalar harray htable] at hv ⊢
    exact h v hv
  | array vs ih =>
    rw [everywhere_array] at hv ⊢
    exact ⟨h _ hv.1, fun v hmem => ih v hmem (hv.2 v hmem)⟩
  | table es ih =>
    rw [everywhere_table] at hv ⊢
    exact ⟨h _ hv.1, fun e hmem => ih e hmem (hv.2 e hmem)⟩

/-- The table is the value itself or one of its elements. -/
def SectionOf (es : List (String × Value)) : Value → Prop
  | .table entries => entries = es
  | .array elements => .table es ∈ elements
  | _ => False

/-- Induction over the tables that can have sections of their own. -/
theorem sections_induction {Q : List (String × Value) → Prop}
    (step : ∀ es, (∀ e ∈ es, ∀ below, SectionOf below e.2 → Q below) → Q es)
    (es : List (String × Value)) : Q es := by
  have hall (v : Value) : ∀ below, SectionOf below v → Q below := by
    induction v using Value.induction with
    | scalar v harray htable =>
      intro below hbelow
      cases v with
      | array vs => exact absurd rfl (harray vs)
      | table es => exact absurd rfl (htable es)
      | _ => exact hbelow.elim
    | array vs ih => exact fun below hmem => ih (.table below) hmem below rfl
    | table es ih =>
      rintro _ rfl
      exact step es ih
  exact hall (.table es) es rfl

theorem everywhere_sectionOf {es below : List (String × Value)} (h : Everywhere P (.table es))
    {e : String × Value} (he : e ∈ es) (hbelow : SectionOf below e.2) :
    Everywhere P (.table below) := by
  have hv := (everywhere_table.1 h).2 e he
  generalize e.2 = v at hv hbelow
  cases v with
  | table entries =>
    cases hbelow
    exact hv
  | array elements => exact (everywhere_array.1 hv).2 _ hbelow
  | _ => exact hbelow.elim

def IsOrdered : Value → Prop
  | .table entries => KeysOrdered entries
  | _ => True

def IsDistinct : Value → Prop
  | .table entries => KeysDistinct entries
  | _ => True

theorem IsOrdered.distinct {v : Value} (h : IsOrdered v) : IsDistinct v := by
  cases v with
  | table entries => exact KeysOrdered.distinct h
  | _ => trivial

theorem ordered_scalar {v : Value} (harray : ∀ vs, v ≠ .array vs) (htable : ∀ es, v ≠ .table es) :
    ordered v = v := by
  cases v with
  | array vs => exact absurd rfl (harray vs)
  | table es => exact absurd rfl (htable es)
  | _ => rfl

theorem mapValues_eq_self {f : Value → Value} {entries : List (String × Value)}
    (h : ∀ e ∈ entries, f e.2 = e.2) : mapValues f entries = entries := by
  rw [mapValues, List.map_congr_left (g := id) fun e he => by rw [h e he]; rfl, List.map_id]

theorem ordered_eq_self {v : Value} (h : Everywhere IsOrdered v) : ordered v = v := by
  induction v using Value.induction with
  | scalar v harray htable => exact ordered_scalar harray htable
  | array vs ih =>
    rw [everywhere_array] at h
    rw [ordered, orderedElements_eq, List.map_congr_left (g := id) fun v hv => ih v hv (h.2 v hv),
      List.map_id]
  | table es ih =>
    rw [everywhere_table] at h
    have hkeys : KeysOrdered es := h.1
    rw [ordered, orderedEntries_eq hkeys.distinct,
      mapValues_eq_self fun e he => ih e he (h.2 e he), insertAll_eq_self hkeys]

theorem arrangedElements_eq (vs : List Value) : arrangedElements vs = vs.map arranged := by
  induction vs with
  | nil => rfl
  | cons v vs ih => rw [arrangedElements, ih, List.map_cons]

theorem arrangedEntries_eq (es : List (String × Value)) :
    arrangedEntries es = mapValues arranged es := by
  induction es with
  | nil => rfl
  | cons e es ih =>
    obtain ⟨k, v⟩ := e
    rw [arrangedEntries, ih]
    rfl

theorem tablesLast_perm (entries : List (String × Value)) : (tablesLast entries).Perm entries := by
  induction entries with
  | nil => exact .refl _
  | cons e entries ih =>
    obtain ⟨k, v⟩ := e
    unfold tablesLast at ih ⊢
    rw [List.filter_cons, List.filter_cons, List.filter_cons]
    cases htable : v.isTable with
    | true =>
      have hholds : v.holdsTable = false := by
        cases v with
        | array vs => exact absurd htable Bool.false_ne_true
        | _ => rfl
      simp only [hholds, Bool.not_true, Bool.false_and, Bool.false_eq_true, if_false, if_true]
      exact List.perm_middle.trans (ih.cons _)
    | false =>
      cases hholds : v.holdsTable with
      | true =>
        simp only [Bool.not_false, Bool.not_true, Bool.and_false, Bool.false_eq_true, if_false,
          if_true, List.append_assoc, List.cons_append]
        rw [List.append_assoc] at ih
        exact List.perm_middle.trans (ih.cons _)
      | false =>
        simp only [Bool.not_false, Bool.and_self, Bool.false_eq_true, if_false, if_true,
          List.cons_append]
        exact ih.cons _

/-- How the entries were arranged does not show once they are in order. -/
theorem ordered_arranged {v : Value} (h : Everywhere IsDistinct v) :
    ordered (arranged v) = ordered v := by
  induction v using Value.induction with
  | scalar v harray htable =>
    cases v with
    | array vs => exact absurd rfl (harray vs)
    | table es => exact absurd rfl (htable es)
    | _ => rfl
  | array vs ih =>
    rw [everywhere_array] at h
    rw [arranged, ordered, ordered, orderedElements_eq, orderedElements_eq, arrangedElements_eq,
      List.map_map]
    exact congrArg Value.array (List.map_congr_left fun v hv => ih v hv (h.2 v hv))
  | table es ih =>
    rw [everywhere_table] at h
    have hkeys : KeysDistinct es := h.1
    have hperm := tablesLast_perm (mapValues arranged es)
    have hdistinct : KeysDistinct (tablesLast (mapValues arranged es)) :=
      (keysDistinct_mapValues hkeys arranged).perm hperm.symm (fun hne => hne.symm)
    have hvalues : mapValues ordered (mapValues arranged es) = mapValues ordered es := by
      rw [mapValues, mapValues, List.map_map]
      exact List.map_congr_left fun e he => by rw [Function.comp_apply, ih e he (h.2 e he)]
    rw [arranged, ordered, ordered, arrangedEntries_eq, orderedEntries_eq hdistinct,
      orderedEntries_eq hkeys, ← hvalues]
    exact congrArg Value.table
      (insertAll_perm (hperm.map _) (keysDistinct_mapValues hdistinct _) [])

end Value

end Sift.Toml

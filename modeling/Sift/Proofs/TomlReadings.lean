import Sift.Proofs.TomlScalars
import Sift.Proofs.TomlTables

/-!
# What a document can hold

In a value that was read the keys of every table are in order, and every date and every
time has its parts in the ranges of the calendar and the clock.

`ReadsOnly` says of a reader, and `Keeps` of a change to a table, that all values are like
that.
-/

namespace Sift.Toml

open Sift.Text Sift.Grammar
open Value (Everywhere)

theorem takeDigits_lt {n k : Nat} {s rest : List Char} (h : takeDigits n s = some (k, rest)) :
    k < 10 ^ n := by
  obtain ⟨digits, -, ⟨rfl, hrun⟩, rfl⟩ := takeDigits_eq_some_iff.1 h
  exact natOfDigits_lt hrun

theorem takeNanos_lt {n : Nat} {s rest : List Char} (h : takeNanos s = some (n, rest)) :
    n < 1000000000 := by
  unfold takeNanos at h
  split at h
  · next s =>
    simp only [Option.ite_none_left_eq_some, Option.some.injEq, Prod.mk.injEq] at h
    obtain ⟨-, rfl, -⟩ := h
    generalize hkept : (s.takeWhile isDigit).take 9 = kept
    have hrun : Run isDigit kept := by
      intro c hc
      rw [← hkept] at hc
      exact run_takeWhile isDigit s c (List.mem_of_mem_take hc)
    have hlength : kept.length ≤ 9 := by
      rw [← hkept]
      exact List.length_take_le ..
    calc natOfDigits kept * Nat.pow 10 (9 - kept.length)
        < 10 ^ kept.length * 10 ^ (9 - kept.length) :=
          Nat.mul_lt_mul_of_pos_right (natOfDigits_lt hrun) (Nat.pow_pos (by decide))
      _ = 1000000000 := by rw [← Nat.pow_add, Nat.add_sub_cancel' hlength]
  · simp only [Option.some.injEq, Prod.mk.injEq] at h
    omega

theorem takeDate_isValid {s rest : List Char} {d : LocalDate} (h : takeDate s = some (d, rest)) :
    d.IsValid := by
  simp only [takeDate, Option.bind_eq_bind, Option.bind_eq_some_iff] at h
  obtain ⟨⟨year, s₁⟩, hyear, s₂, -, ⟨month, s₃⟩, -, s₄, -, ⟨day, s₅⟩, -, h⟩ := h
  simp only [Option.ite_none_right_eq_some, Option.some.injEq, Prod.mk.injEq] at h
  obtain ⟨hday, rfl, -⟩ := h
  exact ⟨takeDigits_lt hyear, hday⟩

theorem takeTime_isValid {s rest : List Char} {t : LocalTime} (h : takeTime s = some (t, rest)) :
    t.IsValid := by
  simp only [takeTime, Option.bind_eq_bind, Option.bind_eq_some_iff] at h
  obtain ⟨⟨hour, s₁⟩, -, s₂, -, ⟨minute, s₃⟩, -, s₄, -, ⟨second, s₅⟩, -, ⟨nanos, s₆⟩, hnanos,
    h⟩ := h
  simp only [Option.ite_none_right_eq_some, Option.some.injEq, Prod.mk.injEq] at h
  obtain ⟨⟨hhour, hminute, hsecond⟩, rfl, -⟩ := h
  exact ⟨hhour, hminute, hsecond, takeNanos_lt hnanos⟩

theorem offset?_isValid {s : List Char} {o : Offset} (h : offset? s = some o) : o.IsValid := by
  cases s with
  | nil => cases h
  | cons c s =>
    rw [offset?] at h
    split at h
    · simp only [Option.ite_none_right_eq_some, Option.some.injEq] at h
      obtain ⟨-, rfl⟩ := h
      trivial
    · simp only [Option.ite_none_right_eq_some, Option.bind_eq_bind, Option.bind_eq_some_iff] at h
      obtain ⟨-, ⟨hours, s₁⟩, -, s₂, -, ⟨minutes, s₃⟩, -, h⟩ := h
      simp only [Option.some.injEq] at h
      obtain ⟨⟨-, hhours, hminutes⟩, rfl⟩ := h
      rw [Offset.IsValid]
      split
      · omega
      · omega

theorem afterDate?_isValid {d : LocalDate} (hd : d.IsValid) {s : List Char} {d' : DateTime}
    (h : afterDate? d s = some d') : d'.IsValid := by
  cases s with
  | nil =>
    cases h
    exact hd
  | cons c s =>
    rw [afterDate?] at h
    split at h
    · split at h
      · cases h
      · next htime =>
        cases h
        exact ⟨hd, takeTime_isValid htime, fun o' ho => by cases ho⟩
      · next htime =>
        simp only [Option.map_eq_some_iff] at h
        obtain ⟨o, ho, rfl⟩ := h
        refine ⟨hd, takeTime_isValid htime, ?_⟩
        rintro o' ⟨⟩
        exact offset?_isValid ho
    · cases h

theorem dateTime?_isValid {s : List Char} {d : DateTime} (h : dateTime? s = some d) :
    d.IsValid := by
  rw [dateTime?] at h
  split at h
  · next hdate => exact afterDate?_isValid (takeDate_isValid hdate) h
  · split at h
    · next htime =>
      cases h
      exact takeTime_isValid htime
    · cases h

/-- What a value that was read is like: the keys of a table are in order, and a date or time
has its parts in range. -/
def Value.IsRead : Value → Prop
  | .dateTime d => d.IsValid
  | .table entries => KeysOrdered entries
  | _ => True

theorem everywhere_scalarOfRun? {run : List Char} {v : Value} (h : scalarOfRun? run = some v) :
    Everywhere Value.IsRead v := by
  unfold scalarOfRun? at h
  split at h
  · cases h
    trivial
  · cases h
    trivial
  · split at h
    · next hdate =>
      cases h
      exact dateTime?_isValid hdate
    · split at h
      · cases h
        trivial
      · split at h
        · simp only [Option.ite_none_right_eq_some, Option.some.injEq] at h
          obtain ⟨-, rfl⟩ := h
          trivial
        · cases h

def ReadsOnly (read : ValueReader) : Prop :=
  ∀ ⦃s : List Char⦄ ⦃v : Value⦄ ⦃r : Rest s⦄, read s = some (v, r) → Everywhere Value.IsRead v

theorem readsOnly_scalar : ReadsOnly scalar := by
  intro s v r h
  rw [scalar] at h
  split at h
  · simp only [Option.map_eq_some_iff, Prod.mk.injEq] at h
    obtain ⟨-, -, rfl, -⟩ := h
    trivial
  · dsimp only at h
    split at h
    · next hscalar _ =>
      cases h
      exact everywhere_scalarOfRun? hscalar
    · cases h

theorem everywhere_values {t : Table} : Everywhere Value.IsRead t.toValue ↔
    KeysOrdered t.values ∧ ∀ e ∈ t.values, Everywhere Value.IsRead e.2 := by
  rw [Table.toValue_eq, Value.everywhere_table]
  rfl

namespace Table

variable {t t' : Table}

theorem everywhere_empty (origin : Origin) : Everywhere Value.IsRead (empty origin).toValue :=
  everywhere_values.2 ⟨.nil, List.forall_mem_nil _⟩

theorem everywhere_get? (h : Everywhere Value.IsRead t.toValue) {key : String} {item : Item}
    (hget : t.get? key = some item) : Everywhere Value.IsRead item.toValue := by
  obtain ⟨front, after, hentries, -⟩ := List.lookup_eq_some_iff.1 hget
  have hmem : (key, item.toValue) ∈ t.values :=
    List.mem_map.2 ⟨(key, item), by rw [hentries]; simp, rfl⟩
  exact (everywhere_values.1 h).2 _ hmem

theorem everywhere_insert (h : Everywhere Value.IsRead t.toValue) (key : String) {item : Item}
    (hitem : Everywhere Value.IsRead item.toValue) :
    Everywhere Value.IsRead (t.insert key item).toValue := by
  obtain ⟨hkeys, hvalues⟩ := everywhere_values.1 h
  rw [everywhere_values, values_insert]
  refine ⟨hkeys.insertEntry key _, fun e he => ?_⟩
  rcases mem_insertEntry he with rfl | he
  · exact hitem
  · exact hvalues e he

theorem everywhere_tables {latest : List (String × Item)} {earlier : List (List (String × Item))} :
    Everywhere Value.IsRead (Item.tables latest earlier).toValue ↔
      ∀ entries ∈ latest :: earlier,
        Everywhere Value.IsRead (Value.table (mapValues Item.toValue entries)) := by
  rw [Item.toValue_tables, Value.everywhere_array]
  simp only [List.mem_reverse, List.mem_map, forall_exists_index, and_imp, forall_apply_eq_imp_iff₂]
  exact ⟨fun h => h.2, fun h => ⟨trivial, h⟩⟩

theorem toValue_table (t : Table) : (Item.table t.origin t.entries).toValue = t.toValue := by
  rw [Item.toValue_table, toValue_eq]

def Keeps (f : Table → Option Table) : Prop :=
  ∀ ⦃t t' : Table⦄, Everywhere Value.IsRead t.toValue → f t = some t' →
    Everywhere Value.IsRead t'.toValue

theorem keeps_update (dotted : Bool) {f : Table → Option Table} (hf : Keeps f)
    (path : List String) : Keeps (update dotted f path) := by
  induction path with
  | nil => exact hf
  | cons key path ih =>
    intro t t' h hupdate
    have htable {sub sub' : Table} (hsub : Everywhere Value.IsRead sub.toValue)
        (hsub' : update dotted f path sub = some sub') :
        Everywhere Value.IsRead (t.insert key (.table sub'.origin sub'.entries)).toValue :=
      everywhere_insert h key (by rw [toValue_table]; exact ih hsub hsub')
    rw [update] at hupdate
    split at hupdate
    · obtain ⟨sub, hsub, rfl⟩ := Option.map_eq_some_iff.1 hupdate
      exact htable (everywhere_empty _) hsub
    · cases hupdate
    · next latest earlier hget =>
      obtain ⟨sub, hsub, rfl⟩ := Option.map_eq_some_iff.1 hupdate
      obtain ⟨hlatest, hearlier⟩ :=
        List.forall_mem_cons.1 (everywhere_tables.1 (everywhere_get? h hget))
      refine everywhere_insert h key (everywhere_tables.2 (List.forall_mem_cons.2 ⟨?_, hearlier⟩))
      have hread := ih (t := ⟨.declared, latest⟩) (by rwa [toValue_eq]) hsub
      rwa [toValue_eq] at hread
    · next origin entries hget =>
      rw [Option.ite_none_left_eq_some] at hupdate
      obtain ⟨sub, hsub, rfl⟩ := Option.map_eq_some_iff.1 hupdate.2
      have hread := everywhere_get? h hget
      have hsub' : Everywhere Value.IsRead (Table.mk origin entries).toValue := by
        rwa [← toValue_table]
      exact htable hsub' hsub

theorem keeps_assign (path : List String) {v : Value} (hv : Everywhere Value.IsRead v) :
    Keeps (assign path v) := by
  intro t t' h hassign
  rw [assign] at hassign
  split at hassign
  · cases hassign
  · next key _ =>
    refine keeps_update true (fun sub sub' hsub hstep => ?_) _ h hassign
    simp only [Option.ite_none_left_eq_some, Option.some.injEq] at hstep
    obtain ⟨-, -, rfl⟩ := hstep
    exact everywhere_insert hsub key (by rwa [Item.toValue])

theorem keeps_declare (path : List String) : Keeps (declare path) := by
  intro t t' h hdeclare
  rw [declare] at hdeclare
  split at hdeclare
  · cases hdeclare
  · next key _ =>
    refine keeps_update false (fun sub sub' hsub hstep => ?_) _ h hdeclare
    split at hstep
    · cases hstep
      exact everywhere_insert hsub key ((toValue_table (empty .declared)).symm ▸ everywhere_empty _)
    · next entries hget =>
      cases hstep
      have hread := everywhere_get? hsub hget
      exact everywhere_insert hsub key (by rwa [Item.toValue] at hread ⊢)
    · cases hstep

theorem keeps_declareElement (path : List String) : Keeps (declareElement path) := by
  intro t t' h hdeclare
  have hempty : Everywhere Value.IsRead (Value.table (mapValues Item.toValue [])) :=
    Value.everywhere_table.2 ⟨.nil, List.forall_mem_nil _⟩
  rw [declareElement] at hdeclare
  split at hdeclare
  · cases hdeclare
  · next key _ =>
    refine keeps_update false (fun sub sub' hsub hstep => ?_) _ h hdeclare
    split at hstep
    · cases hstep
      exact everywhere_insert hsub key
        (everywhere_tables.2 (List.forall_mem_cons.2 ⟨hempty, List.forall_mem_nil _⟩))
    · next latest earlier hget =>
      cases hstep
      have hread := everywhere_tables.1 (everywhere_get? hsub hget)
      exact everywhere_insert hsub key
        (everywhere_tables.2 (List.forall_mem_cons.2 ⟨hempty, hread⟩))
    · cases hstep

end Table

def Statement.HoldsRead : Statement → Prop
  | .entry _ v => Everywhere Value.IsRead v
  | _ => True

theorem Section.everywhere_run {s s' : Section} {statement : Statement}
    (hstatement : statement.HoldsRead) (h : Everywhere Value.IsRead s.root.toValue)
    (hrun : s.run statement = some s') : Everywhere Value.IsRead s'.root.toValue := by
  cases statement with
  | entry path v =>
    obtain ⟨root, hroot, rfl⟩ := Option.map_eq_some_iff.1 hrun
    exact Table.keeps_update false (Table.keeps_assign path hstatement) s.path h hroot
  | header path =>
    obtain ⟨root, hroot, rfl⟩ := Option.map_eq_some_iff.1 hrun
    exact Table.keeps_declare path h hroot
  | elementHeader path =>
    obtain ⟨root, hroot, rfl⟩ := Option.map_eq_some_iff.1 hrun
    exact Table.keeps_declareElement path h hroot

theorem Section.everywhere_foldlM {statements : List Statement} {s s' : Section}
    (hstatements : ∀ st ∈ statements, st.HoldsRead) (h : Everywhere Value.IsRead s.root.toValue)
    (hrun : statements.foldlM Section.run s = some s') :
    Everywhere Value.IsRead s'.root.toValue := by
  induction statements generalizing s with
  | nil =>
    cases hrun
    exact h
  | cons first others ih =>
    obtain ⟨hfirst, hothers⟩ := List.forall_mem_cons.1 hstatements
    rw [List.foldlM_cons, Option.bind_eq_bind, Option.bind_eq_some_iff] at hrun
    obtain ⟨s₁, hstep, hrun⟩ := hrun
    exact ih hothers (Section.everywhere_run hfirst h hstep) hrun

theorem everywhere_tableOfStatements {statements : List Statement} {v : Value}
    (hstatements : ∀ st ∈ statements, st.HoldsRead) (h : tableOfStatements statements = some v) :
    Everywhere Value.IsRead v := by
  obtain ⟨s, hrun, rfl⟩ := Option.map_eq_some_iff.1 h
  exact Section.everywhere_foldlM hstatements (Table.everywhere_empty .declared) hrun

theorem everywhere_tableOfPairs {pairs : List (List String × Value)} {v : Value}
    (hpairs : ∀ pair ∈ pairs, Everywhere Value.IsRead pair.2) (h : tableOfPairs pairs = some v) :
    Everywhere Value.IsRead v := by
  refine everywhere_tableOfStatements (fun st hst => ?_) h
  obtain ⟨pair, hpair, rfl⟩ := List.mem_map.1 hst
  exact hpairs pair hpair

section
variable {read : ValueReader}

theorem readsOnly_elements (hread : ReadsOnly read) {s : List Char} {vs : List Value} {r : Rest s}
    (h : elements read s = some (vs, r)) : ∀ v ∈ vs, Everywhere Value.IsRead v := by
  induction hlength : s.length using Nat.strongRecOn generalizing s vs with
  | ind n ih =>
    rw [elements] at h
    split at h
    · simp only [Option.map_eq_some_iff, Prod.mk.injEq] at h
      obtain ⟨-, -, rfl, -⟩ := h
      exact List.forall_mem_nil _
    · split at h
      · cases h
      · next v after hv =>
        have hfirst := hread hv
        split at h
        · next rest hcomma =>
          dsimp only at h
          split at h
          · next others r' hothers =>
            cases h
            have hshorter : rest.length < s.length := by
              have hgap := length_skipGap_le false s
              have hgap' := length_skipGap_le false after.1
              have hafter := after.2
              rw [hcomma, List.length_cons] at hgap'
              omega
            exact List.forall_mem_cons.2 ⟨hfirst, ih rest.length (hlength ▸ hshorter) hothers rfl⟩
          · cases h
        · simp only [Option.map_eq_some_iff, Prod.mk.injEq] at h
          obtain ⟨-, -, rfl, -⟩ := h
          exact List.forall_mem_singleton.2 hfirst
        · cases h

theorem readsOnly_keyValue (hread : ReadsOnly read) {s : List Char} {pair : List String × Value}
    {r : Rest s} (h : keyValue read s = some (pair, r)) : Everywhere Value.IsRead pair.2 := by
  rw [keyValue] at h
  split at h
  · cases h
  · split at h
    · split at h
      · next hv =>
        simp only [Option.map_eq_some_iff, Prod.mk.injEq] at h
        obtain ⟨-, -, rfl, -⟩ := h
        exact hread hv
      · cases h
    · cases h

theorem readsOnly_pairs (hread : ReadsOnly read) {s : List Char}
    {entries : List (List String × Value)} {r : Rest s} (h : pairs read s = some (entries, r)) :
    ∀ pair ∈ entries, Everywhere Value.IsRead pair.2 := by
  induction hlength : s.length using Nat.strongRecOn generalizing s entries with
  | ind n ih =>
    rw [pairs] at h
    split at h
    · cases h
    · next pair after hpair =>
      have hfirst := readsOnly_keyValue hread hpair
      split at h
      · next rest _ =>
        split at h
        · next hshorter =>
          split at h
          · next others r' hothers =>
            cases h
            exact List.forall_mem_cons.2 ⟨hfirst, ih rest.length (hlength ▸ hshorter) hothers rfl⟩
          · cases h
        · cases h
      · simp only [Option.map_eq_some_iff, Prod.mk.injEq] at h
        obtain ⟨-, -, rfl, -⟩ := h
        exact List.forall_mem_singleton.2 hfirst
      · cases h

end

theorem readsOnly_value (depth : Nat) : ReadsOnly (value depth) := by
  induction depth with
  | zero => exact readsOnly_scalar
  | succ depth ih =>
    intro s v r h
    rw [value] at h
    beta_reduce at h
    split at h
    · split at h
      · next helements =>
        simp only [Option.map_eq_some_iff, Prod.mk.injEq] at h
        obtain ⟨-, -, rfl, -⟩ := h
        exact Value.everywhere_array.2 ⟨trivial, readsOnly_elements ih helements⟩
      · cases h
    · split at h
      · simp only [Option.map_eq_some_iff, Prod.mk.injEq] at h
        obtain ⟨-, -, rfl, -⟩ := h
        exact Value.everywhere_table.2 ⟨.nil, List.forall_mem_nil _⟩
      · split at h
        · next hpairs =>
          split at h
          · next htable _ =>
            cases h
            exact everywhere_tableOfPairs (readsOnly_pairs ih hpairs) htable
          · cases h
        · cases h
    · exact readsOnly_scalar h

theorem holdsRead_statement {s rest : List Char} {st : Statement}
    (h : statement s = some (st, rest)) : st.HoldsRead := by
  rw [statement.eq_def] at h
  split at h
  · split at h
    · simp only [Option.map_eq_some_iff, Prod.mk.injEq] at h
      obtain ⟨-, -, rfl, -⟩ := h
      trivial
    · cases h
  · split at h
    · simp only [Option.map_eq_some_iff, Prod.mk.injEq] at h
      obtain ⟨-, -, rfl, -⟩ := h
      trivial
    · cases h
  · split at h
    · next hread =>
      simp only [Option.map_eq_some_iff, Prod.mk.injEq] at h
      obtain ⟨-, -, rfl, -⟩ := h
      exact readsOnly_keyValue (readsOnly_value _) hread
    · cases h

theorem holdsRead_statements {s : List Char} {sts : List Statement} (h : statements s = some sts) :
    ∀ st ∈ sts, st.HoldsRead := by
  induction hlength : s.length using Nat.strongRecOn generalizing s sts with
  | ind n ih =>
    rw [statements] at h
    split at h
    · cases h
      exact List.forall_mem_nil _
    · split at h
      · cases h
      · next first rest hfirst =>
        rw [Option.ite_none_right_eq_some, Option.map_eq_some_iff] at h
        obtain ⟨hshorter, others, hothers, rfl⟩ := h
        exact List.forall_mem_cons.2
          ⟨holdsRead_statement hfirst, ih rest.length (hlength ▸ hshorter) hothers rfl⟩

/-- In a document that was read the keys are in order and the dates and times in range. -/
theorem everywhere_read {text : String} {v : Value} (h : Toml.read text = some v) :
    Everywhere Value.IsRead v := by
  obtain ⟨sts, hsts, htable⟩ := Option.bind_eq_some_iff.1 h
  exact everywhere_tableOfStatements (holdsRead_statements hsts) htable

end Sift.Toml

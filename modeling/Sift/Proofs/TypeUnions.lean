import Sift.Constraint

/-!
# Types as ordered choices

The first listed type that accepts a literal decides what becomes of it. Which one that is
matters only for dates: whether some type accepts does not depend on the order, and every
type but a date leaves the literal as it is. What came out of a list of types is accepted by
it again as it is, a date whatever the time is then.
-/

namespace Sift

theorem Literal.isNull_iff (l : Literal) : l.isNull = true ↔ l = .null := by
  cases l <;> simp [isNull]

def Literal.IsTextOrInteger (l : Literal) : Prop := (∃ s, l = .string s) ∨ ∃ i, l = .int i

theorem ValueType.eq_of_accept? {now : Time.Instant} {type : ValueType} {l v : Literal}
    (hdate : type ≠ .date) (h : type.accept? now l = some v) : v = l := by
  cases type with
  | date => exact absurd rfl hdate
  | numeric =>
    cases l with
    | string s => exact (Option.some_inj.1 (Option.ite_none_right_eq_some.1 h).2).symm
    | int | float => exact (Option.some_inj.1 h).symm
    | bool | null | date => cases h
  | int | float | string | bool | null =>
    have hsame : some l = some v := by
      cases l <;> first | exact h | cases h
    exact (Option.some_inj.1 hsame).symm

/-- Only a text or a whole number has to be turned into a date. -/
theorem ValueType.exists_of_accept?_date {now : Time.Instant} {l v : Literal}
    (h : ValueType.date.accept? now l = some v) :
    ∃ t, v = .date t ∧ (l = .date t ∨ l.IsTextOrInteger) := by
  cases l with
  | string s =>
    obtain ⟨t, -, rfl⟩ := Option.map_eq_some_iff.1 h
    exact ⟨t, rfl, .inr (.inl ⟨s, rfl⟩)⟩
  | int i =>
    obtain ⟨t, -, rfl⟩ := Option.map_eq_some_iff.1 h
    exact ⟨t, rfl, .inr (.inr ⟨i, rfl⟩)⟩
  | date t => exact ⟨t, (Option.some_inj.1 h).symm, .inl rfl⟩
  | float | bool | null => cases h

/-- A date is accepted by the type of dates alone, and at any time. -/
theorem ValueType.accept?_date (now : Time.Instant) (type : ValueType) (t : Time.Instant) :
    type.accept? now (.date t) = if type = .date then some (.date t) else none := by
  cases type <;> rfl

theorem ValueType.isNull_of_accept? {now : Time.Instant} {type : ValueType} {l v : Literal}
    (h : type.accept? now l = some v) : v.isNull = l.isNull := by
  by_cases hdate : type = .date
  · rw [hdate] at h
    obtain ⟨t, rfl, rfl | ⟨s, rfl⟩ | ⟨i, rfl⟩⟩ := exists_of_accept?_date h
    · rfl
    · rfl
    · rfl
  · rw [eq_of_accept? hdate h]

namespace Constraint

variable {c : Constraint} {types : List ValueType} {field : String} {now : Time.Instant}
  {l v : Literal}

theorem validate_eq_ok_iff :
    c.validate field now l = .ok v ↔ c.allows l = true ∧ c.coerce? now l = some v := by
  unfold validate
  cases hallows : c.allows l with
  | false => simp
  | true => cases hvalue : c.coerce? now l <;> simp

theorem isNull_of_validate (h : c.validate field now l = .ok v) : v.isNull = l.isNull := by
  have hvalue := (validate_eq_ok_iff.1 h).2
  unfold coerce? at hvalue
  split at hvalue
  · rw [Option.some_inj.1 hvalue]
  · obtain ⟨type, -, htype⟩ := List.exists_of_findSome?_eq_some hvalue
    exact ValueType.isNull_of_accept? htype

/-- The literal is accepted if it is allowed and some listed type accepts it. -/
theorem exists_validate_iff (values : Option (List Literal)) (types : List ValueType) :
    (∃ v, (Constraint.mk values (some types)).validate field now l = .ok v) ↔
      (Constraint.mk values none).allows l = true ∧
        ∃ type ∈ types, (type.accept? now l).isSome = true := by
  simp only [validate_eq_ok_iff, exists_and_left, ← Option.isSome_iff_exists]
  exact and_congr Iff.rfl List.findSome?_isSome_iff

/-- A text or a whole number that a date among the types accepts, while every other type that
accepts it is listed after the first date. -/
def DateFirst (types : List ValueType) (now : Time.Instant) (l : Literal) : Prop :=
  l.IsTextOrInteger ∧ .date ∈ types ∧ (ValueType.date.accept? now l).isSome = true ∧
    ∀ type ∈ types, type ≠ .date → (type.accept? now l).isSome = true →
      types.idxOf .date < types.idxOf type

/-- The list is cut at the first type that accepts. If that is a date, no other accepting type
is in front of it, and if it is not, no date that accepts is. -/
theorem eq_or_date_of_findSome? (h : types.findSome? (·.accept? now l) = some v) :
    (v = l ∧ ¬ DateFirst types now l) ∨
      (ValueType.date.accept? now l = some v ∧ DateFirst types now l) := by
  obtain ⟨before, type, after, rfl, htype, hbefore⟩ := List.findSome?_eq_some_iff.1 h
  have hnot {t : ValueType} (ht : (t.accept? now l).isSome = true) : t ∉ before := by
    intro hmem
    rw [hbefore t hmem] at ht
    cases ht
  have hfirst : type ∉ before := hnot (by rw [htype, Option.isSome_some])
  have hplace : (before ++ type :: after).idxOf type = before.length := by
    rw [List.idxOf_append, if_neg hfirst, List.idxOf_cons_self, Nat.zero_add]
  have hlater {t : ValueType} (ht : (t.accept? now l).isSome = true) (hne : t ≠ type) :
      before.length < (before ++ type :: after).idxOf t := by
    rw [List.idxOf_append, if_neg (hnot ht), List.idxOf_cons, beq_false_of_ne hne.symm, cond_false]
    omega
  by_cases hdate : type = .date
  · subst hdate
    obtain ⟨t, rfl, rfl | hl⟩ := ValueType.exists_of_accept?_date htype
    · refine .inl ⟨rfl, fun hfirst => ?_⟩
      obtain ⟨⟨s, hs⟩ | ⟨i, hi⟩, -⟩ := hfirst
      · cases hs
      · cases hi
    · refine .inr ⟨htype, hl, by simp, by rw [htype, Option.isSome_some],
        fun other _ hne hother => ?_⟩
      rw [hplace]
      exact hlater hother hne
  · refine .inl ⟨ValueType.eq_of_accept? hdate htype, fun hfirst => ?_⟩
    obtain ⟨-, -, haccepts, hbefore⟩ := hfirst
    have hlast := hbefore type (by simp) hdate (by rw [htype, Option.isSome_some])
    rw [hplace] at hlast
    exact Nat.lt_asymm hlast (hlater haccepts (Ne.symm hdate))

theorem findSome?_date (hdate : ValueType.date ∈ types) (now t : Time.Instant) :
    types.findSome? (·.accept? now (.date t)) = some (.date t) := by
  induction types with
  | nil => cases hdate
  | cons type types ih =>
    rw [List.findSome?_cons, ValueType.accept?_date]
    by_cases htype : type = .date
    · rw [if_pos htype]
    · rw [if_neg htype]
      exact ih ((List.mem_cons.1 hdate).resolve_left (Ne.symm htype))

/-- What a list of types made of a literal is left as it is by the list, and a date at any
later time. -/
theorem coerce?_again (h : c.coerce? now l = some v) :
    c.coerce? now v = some v ∧ ∀ t, v = .date t → ∀ later, c.coerce? later v = some v := by
  obtain ⟨values, types⟩ := c
  cases types with
  | none => exact ⟨rfl, fun _ _ _ => rfl⟩
  | some types =>
    have hdate (t : Time.Instant) (hv : v = .date t) (later : Time.Instant) :
        types.findSome? (·.accept? later v) = some v := by
      obtain ⟨type, hmem, htype⟩ := List.exists_of_findSome?_eq_some h
      have hlisted : ValueType.date ∈ types := by
        by_cases hne : type = .date
        · exact hne ▸ hmem
        · have hl := ValueType.eq_of_accept? hne htype
          rw [← hl, hv, ValueType.accept?_date, if_neg hne] at htype
          cases htype
      rw [hv]
      exact findSome?_date hlisted later t
    refine ⟨?_, hdate⟩
    obtain ⟨rfl, -⟩ | ⟨haccept, -⟩ := eq_or_date_of_findSome? h
    · exact h
    · obtain ⟨t, hv, -⟩ := ValueType.exists_of_accept?_date haccept
      exact hdate t hv now

/-- A list of types is an ordered choice. Whether a literal is accepted depends only on which
types are listed. An accepted literal stays as it is, but a text or a whole number becomes a
date if a date accepts it and is listed before every other type that does. Without a list of
values, what was made of a literal is accepted again and stays as it is. -/
theorem validate_types (c : Constraint) (field : String) (now : Time.Instant) (l : Literal) :
    (∀ types types', (∀ type, type ∈ types ↔ type ∈ types') →
      ((∃ v, (Constraint.mk c.values (some types)).validate field now l = .ok v) ↔
        ∃ v, (Constraint.mk c.values (some types')).validate field now l = .ok v)) ∧
    (∀ v, c.validate field now l = .ok v →
      ((v = l ∧ ¬ ∃ types, c.types = some types ∧ DateFirst types now l) ∨
        ((∃ t, v = .date t) ∧ ValueType.date.accept? now l = some v ∧
          ∃ types, c.types = some types ∧ DateFirst types now l)) ∧
      (v = .null ↔ l = .null)) ∧
    (∀ v, c.values = none → c.validate field now l = .ok v →
      c.validate field now v = .ok v ∧
        ∀ t, v = .date t → ∀ later, c.validate field later v = .ok v) := by
  refine ⟨fun types types' hsame => ?_, fun v h => ⟨?_, ?_⟩, fun v hvalues h => ?_⟩
  · simp only [exists_validate_iff, hsame]
  · have hvalue := (validate_eq_ok_iff.1 h).2
    obtain ⟨values, types⟩ := c
    cases types with
    | none =>
      refine .inl ⟨(Option.some_inj.1 hvalue).symm, fun hfirst => ?_⟩
      obtain ⟨types, hnone, -⟩ := hfirst
      cases hnone
    | some types =>
      simp only [Option.some_inj, exists_eq_left']
      obtain hsame | ⟨haccept, hfirst⟩ := eq_or_date_of_findSome? hvalue
      · exact .inl hsame
      · obtain ⟨t, hv, -⟩ := ValueType.exists_of_accept?_date haccept
        exact .inr ⟨⟨t, hv⟩, haccept, hfirst⟩
  · rw [← Literal.isNull_iff, ← Literal.isNull_iff, isNull_of_validate h]
  · have hallows (l : Literal) : c.allows l = true := by rw [allows, hvalues]
    obtain ⟨hagain, hlater⟩ := coerce?_again (validate_eq_ok_iff.1 h).2
    exact ⟨validate_eq_ok_iff.2 ⟨hallows v, hagain⟩,
      fun t hv later => validate_eq_ok_iff.2 ⟨hallows v, hlater t hv later⟩⟩

/-- The day after is fixed when it is read; as a text it is accepted in any order of the types. -/
theorem validate_types_tomorrow :
    let now : Time.Instant := ⟨1710498600, 0, by decide, by decide, .inl (by decide)⟩
    let day : Time.Instant := ⟨1710547200, 0, by decide, by decide, .inl (by decide)⟩
    let c : Constraint := ⟨none, some [.date, .string]⟩
    c.values = none ∧ (∀ type, type ∈ [ValueType.date, .string] ↔
        type ∈ [ValueType.string, .date, .string]) ∧
      c.validate "from" now (.string "tomorrow") = .ok (.date day) ∧
      DateFirst [.date, .string] now (.string "tomorrow") ∧
      (∃ v, (Constraint.mk none (some [.string, .date, .string])).validate "from" now
        (.string "tomorrow") = .ok v) ∧
      ∀ later, c.validate "from" later (.date day) = .ok (.date day) := by
  intro now day c
  have hsame (type : ValueType) : type ∈ [ValueType.date, .string] ↔
      type ∈ [ValueType.string, .date, .string] := by
    cases type <;> decide
  have hread : c.validate "from" now (.string "tomorrow") = .ok (.date day) :=
    validate_eq_ok_iff.2 ⟨rfl, by decide +kernel⟩
  obtain ⟨hlisted, hresult, hagain⟩ := validate_types c "from" now (.string "tomorrow")
  have hlater := (hagain _ rfl hread).2 day rfl
  refine ⟨rfl, hsame, hread, ?_, (hlisted _ _ hsame).1 ⟨_, hread⟩, hlater⟩
  obtain ⟨⟨hliteral, -⟩ | ⟨-, -, types, htypes, hfirst⟩, -⟩ := hresult _ hread
  · cases hliteral
  · exact (Option.some_inj.1 htypes).symm ▸ hfirst

end Constraint

end Sift

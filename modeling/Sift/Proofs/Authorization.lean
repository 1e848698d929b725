import Sift.Proofs.Emission

/-!
# Which comparisons are let through

A comparison is let through if its field is registered, the field takes its value, its
operator is registered and the field permits the operator. A filter succeeds exactly if all
its comparisons are let through, however deep they stand, and otherwise the first comparison
that is refused gives the error, which is that of the first condition it fails.

`Takes` is the condition on the value, `Permits` the one on the operator, and `Authorized` all
of them. `Refuses` is the error of the first one that fails, and `FirstRefusal` the error of
the first comparison that is refused.
-/

namespace Sift

namespace Field

def Takes (field : Field) (now : Time.Instant) (l : Literal) : Prop :=
  ∃ value, field.constraint.validate field.name now l = .ok value

def Permits (field : Field) (symbol : String) : Prop :=
  (∀ symbols, field.operators = some symbols → symbol ∈ symbols) ∧
    ∀ symbols, field.excludedOperators = some symbols → symbol ∉ symbols

theorem permits_iff (field : Field) (symbol : String) :
    field.permits symbol = true ↔ field.Permits symbol := by
  unfold permits Permits
  cases field.operators <;> cases field.excludedOperators <;> simp

end Field

namespace Filter

open Sift.Text

variable {f : Filter}

def Authorized (f : Filter) (c : Comparison) : Prop :=
  ∃ field, f.fields.get? c.field = some field ∧ field.Takes f.now c.value ∧
    (f.operators.get? c.operator).isSome ∧ field.Permits c.operator

/-- The error of the first condition that a comparison fails. -/
inductive Refuses (f : Filter) (c : Comparison) : Error → Prop
  | field (h : f.fields.get? c.field = none) :
      Refuses f c (.registry (.unknownField c.field))
  | value {field : Field} {error : ValidationError}
      (hfield : f.fields.get? c.field = some field)
      (h : field.constraint.validate field.name f.now c.value = .error error) :
      Refuses f c (.validation error)
  | operator {field : Field} (hfield : f.fields.get? c.field = some field)
      (hvalue : field.Takes f.now c.value) (h : f.operators.get? c.operator = none) :
      Refuses f c (.registry (.unknownOperator c.operator))
  | permission {field : Field} (hfield : f.fields.get? c.field = some field)
      (hvalue : field.Takes f.now c.value) (hoperator : (f.operators.get? c.operator).isSome)
      (h : ¬field.Permits c.operator) :
      Refuses f c (.registry (.operatorNotPermitted c.operator field.name))

theorem authorized_or_refuses (f : Filter) (c : Comparison) :
    f.Authorized c ∨ ∃ err, f.Refuses c err := by
  cases hfield : f.fields.get? c.field with
  | none => exact .inr ⟨_, .field hfield⟩
  | some field =>
    cases hvalue : field.constraint.validate field.name f.now c.value with
    | error err => exact .inr ⟨_, .value hfield hvalue⟩
    | ok value =>
      cases hoperator : f.operators.get? c.operator with
      | none => exact .inr ⟨_, .operator hfield ⟨value, hvalue⟩ hoperator⟩
      | some operator =>
        have hsome : (f.operators.get? c.operator).isSome := by simp [hoperator]
        by_cases hpermits : field.Permits c.operator
        · exact .inl ⟨field, hfield, ⟨value, hvalue⟩, hsome, hpermits⟩
        · exact .inr ⟨_, .permission hfield ⟨value, hvalue⟩ hsome hpermits⟩

theorem resolve_of_authorized {c : Comparison} (h : f.Authorized c) :
    ∃ r, f.resolve c = .ok r := by
  obtain ⟨field, hfield, ⟨value, hvalue⟩, hoperator, hpermits⟩ := h
  obtain ⟨operator, hoperator⟩ := Option.isSome_iff_exists.1 hoperator
  rw [← Field.permits_iff] at hpermits
  exact ⟨⟨field, operator, value⟩, by simp [resolve, hfield, hvalue, hoperator, hpermits]⟩

theorem resolve_of_refuses {c : Comparison} {err : Error} (h : f.Refuses c err) :
    f.resolve c = .error err := by
  cases h with
  | field h => simp [resolve, h]
  | value hfield h => simp [resolve, hfield, h]
  | operator hfield hvalue h =>
    obtain ⟨value, hvalue⟩ := hvalue
    simp [resolve, hfield, hvalue, h]
  | permission hfield hvalue hoperator h =>
    obtain ⟨value, hvalue⟩ := hvalue
    obtain ⟨operator, hoperator⟩ := Option.isSome_iff_exists.1 hoperator
    simp [resolve, hfield, hvalue, hoperator, mt (Field.permits_iff _ _).1 h]

theorem resolve_eq_error_iff {c : Comparison} {err : Error} :
    f.resolve c = .error err ↔ f.Refuses c err := by
  refine ⟨fun h => ?_, resolve_of_refuses⟩
  obtain hauthorized | ⟨other, hrefuses⟩ := f.authorized_or_refuses c
  · obtain ⟨r, hr⟩ := resolve_of_authorized hauthorized
    cases hr.symm.trans h
  · cases (resolve_of_refuses hrefuses).symm.trans h
    exact hrefuses

theorem authorized_iff {c : Comparison} : f.Authorized c ↔ ∀ err, ¬f.Refuses c err := by
  constructor
  · intro h err hrefuses
    obtain ⟨r, hr⟩ := resolve_of_authorized h
    cases hr.symm.trans (resolve_of_refuses hrefuses)
  · intro h
    exact (f.authorized_or_refuses c).resolve_right fun ⟨err, hrefuses⟩ => h err hrefuses

def FirstRefusal (f : Filter) (err : Error) (cs : List Comparison) : Prop :=
  ∃ earlier c later, cs = earlier ++ c :: later ∧ (∀ d ∈ earlier, f.Authorized d) ∧
    f.Refuses c err

theorem not_firstRefusal_nil {err : Error} : ¬f.FirstRefusal err [] := by
  rintro ⟨earlier, c, later, h, -⟩
  simp at h

theorem firstRefusal_cons {err : Error} {c : Comparison} {cs : List Comparison} :
    f.FirstRefusal err (c :: cs) ↔
      f.Refuses c err ∨ (f.Authorized c ∧ f.FirstRefusal err cs) := by
  constructor
  · rintro ⟨earlier, d, later, hcs, hearlier, hd⟩
    cases earlier with
    | nil =>
      obtain ⟨rfl, rfl⟩ := List.cons.inj hcs
      exact .inl hd
    | cons b earlier =>
      obtain ⟨rfl, rfl⟩ := List.cons.inj hcs
      obtain ⟨hb, hearlier⟩ := List.forall_mem_cons.1 hearlier
      exact .inr ⟨hb, earlier, d, later, rfl, hearlier, hd⟩
  · rintro (hc | ⟨hc, earlier, d, later, rfl, hearlier, hd⟩)
    · exact ⟨[], c, cs, rfl, by simp, hc⟩
    · exact ⟨c :: earlier, d, later, rfl, List.forall_mem_cons.2 ⟨hc, hearlier⟩, hd⟩

theorem firstRefusal_append {err : Error} {cs ds : List Comparison} :
    f.FirstRefusal err (cs ++ ds) ↔
      f.FirstRefusal err cs ∨ ((∀ c ∈ cs, f.Authorized c) ∧ f.FirstRefusal err ds) := by
  induction cs with
  | nil => simp [not_firstRefusal_nil]
  | cons c cs ih =>
    rw [List.cons_append, firstRefusal_cons, ih, firstRefusal_cons, List.forall_mem_cons]
    simp only [and_or_left, or_assoc, and_assoc]

theorem forall_authorized_iff {cs : List Comparison} :
    (∀ c ∈ cs, f.Authorized c) ↔ ∀ err, ¬f.FirstRefusal err cs := by
  induction cs with
  | nil => simp [not_firstRefusal_nil]
  | cons c cs ih =>
    simp only [List.forall_mem_cons, ih, firstRefusal_cons, not_or, not_and, forall_and,
      ← authorized_iff]
    exact and_congr_right fun hc => by simp [hc]

mutual

theorem emit_eq_error_iff {k : Connector} {out : Emission} {err : Error} : (e : Expr) →
    (f.emit k out e = .error err ↔ f.FirstRefusal err e.leaves)
  | .comparison c => by
    have hleaf : f.FirstRefusal err (Expr.comparison c).leaves ↔ f.Refuses c err := by
      rw [Expr.leaves, firstRefusal_cons, or_iff_left fun h => not_firstRefusal_nil h.2]
    rw [hleaf, ← resolve_eq_error_iff, emit]
    cases f.resolve c with
    | error other => simp
    | ok r => simp
  | .group inner members => by
    have hmembers : f.emitAll inner ⟨.empty, out.joined⟩ members = .error err ↔
        f.FirstRefusal err (Expr.leavesAll members) := emitAll_eq_error_iff members
    rw [Expr.leaves, ← hmembers, emit]
    cases f.emitAll inner ⟨.empty, out.joined⟩ members with
    | error other => simp
    | ok sub => simp

theorem emitAll_eq_error_iff {k : Connector} {out : Emission} {err : Error} :
    (es : List Expr) → (f.emitAll k out es = .error err ↔ f.FirstRefusal err (Expr.leavesAll es))
  | [] => by
    rw [emitAll, Expr.leavesAll]
    exact iff_of_false (fun h => by cases h) not_firstRefusal_nil
  | e :: es => by
    -- for every error: the members behind `e` are reached only if there is none
    have hhead (other : Error) : f.emit k out e = .error other ↔ f.FirstRefusal other e.leaves :=
      emit_eq_error_iff e
    rw [Expr.leavesAll, firstRefusal_append, emitAll, forall_authorized_iff]
    cases hemit : f.emit k out e with
    | error other =>
      simp only [hemit, Except.error.injEq] at hhead
      have hsome : ¬∀ other, ¬f.FirstRefusal other e.leaves := fun h =>
        h other ((hhead other).1 rfl)
      rw [or_iff_left fun h => hsome h.1, ← hhead err, Except.error.injEq]
    | ok next =>
      have hnone : ∀ other, ¬f.FirstRefusal other e.leaves := by simpa [hemit] using hhead
      rw [or_iff_right (hnone err), and_iff_right hnone]
      exact emitAll_eq_error_iff es

end

theorem emission_eq_error_iff {e : Expr} {err : Error} :
    f.emission e = .error err ↔ f.FirstRefusal err e.leaves := by
  cases e with
  | comparison c => exact emit_eq_error_iff (.comparison c)
  | group k members => exact emitAll_eq_error_iff members

theorem compile_eq_error_iff {e : Expr} (h : f.parse = .ok (some e)) {err : Error} :
    f.compile = .error err ↔ f.FirstRefusal err e.leaves := by
  rw [← emission_eq_error_iff]
  cases hout : f.emission e with
  | error other => simp [compile, h, hout]
  | ok out => simp [compile, h, hout]

theorem exists_eq_ok_iff {ε α : Type} (x : Except ε α) :
    (∃ a, x = .ok a) ↔ ∀ err, x ≠ .error err := by
  cases x with
  | error err => simp
  | ok a => simp

/-- A filter that is not blank and can be parsed succeeds if all its comparisons are let
through, and fails with the error of the first one that is not. -/
theorem outcome_iff_authorized {e : Expr} (hsome : trim f.expression.toList ≠ [])
    (hparse : Expr.parse f.options f.expression = .ok e) (q : Query) :
    ((∃ n, f.check = .ok n) ↔ ∀ c ∈ e.leaves, f.Authorized c) ∧
      ((∃ q', f.apply q = .ok q') ↔ ∀ c ∈ e.leaves, f.Authorized c) ∧
      ∀ err, (f.check = .error err ↔ f.FirstRefusal err e.leaves) ∧
        (f.apply q = .error err ↔ f.FirstRefusal err e.leaves) := by
  have hcompile {err : Error} : f.compile = .error err ↔ f.FirstRefusal err e.leaves :=
    compile_eq_error_iff (parse_eq_some_iff.2 ⟨hsome, hparse⟩)
  simp only [exists_eq_ok_iff, ne_eq, check_eq_error_iff, apply_eq_error_iff, hcompile,
    forall_authorized_iff, and_self, implies_true]

def countField : Field := (plainField.withOperators ["="]).withTypes [.int]

theorem outcome_iff_authorized_countField :
    (∀ q, ∃ q', (overField countField "a=1&(a=2|a=3)").apply q = .ok q') ∧
      ∀ q, (overField countField "a=1&(a='x'|b~2)").apply q =
        .error (.validation (.typeMismatch "a" "int")) := by
  have hequal (expression : String) (i : Int64) :
      (overField countField expression).Authorized ⟨"a", "=", .int i⟩ := by
    have hoperator : (OperatorRegistry.default.get? "=").isSome := by decide +kernel
    have hpermits : countField.permits "=" = true := by decide
    exact ⟨countField, get?_overField countField expression, ⟨.int i, rfl⟩, hoperator,
      (Field.permits_iff _ _).1 hpermits⟩
  constructor
  · intro q
    have hparse := parse_overField countField "a=1&(a=2|a=3)"
      (.group .and [.comparison ⟨"a", "=", .int 1⟩,
        .group .or [.comparison ⟨"a", "=", .int 2⟩, .comparison ⟨"a", "=", .int 3⟩]])
      (by decide +kernel)
    refine (outcome_iff_authorized (by decide +kernel) hparse q).2.1.2 ?_
    simp [Expr.leaves, Expr.leavesAll, hequal]
  · intro q
    have hparse := parse_overField countField "a=1&(a='x'|b~2)"
      (.group .and [.comparison ⟨"a", "=", .int 1⟩,
        .group .or [.comparison ⟨"a", "=", .string "x"⟩, .comparison ⟨"b", "~", .int 2⟩]])
      (by decide +kernel)
    refine ((outcome_iff_authorized (by decide +kernel) hparse q).2.2 _).2.2 ?_
    refine ⟨[⟨"a", "=", .int 1⟩], ⟨"a", "=", .string "x"⟩, [⟨"b", "~", .int 2⟩], rfl, ?_, ?_⟩
    · simp [hequal]
    · exact .value (get?_overField countField _) (by rfl)

end Filter

end Sift

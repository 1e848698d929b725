import Sift.Query.Printer

/-!
# The truth of conditions

Conditions are read in the logic of SQL with a third truth value. Which atomic
conditions are true is left open, and a list of conditions is read by precedence: AND
binds more tightly than OR, and only a nested group is in parentheses. A condition that
is joined by AND to the end of a list therefore restricts only what follows the last OR.

An `Atom` is a condition without parts, and a fragment of SQL counts as one. `truthAll` is the
truth of a group, and `EarlierAlternative` says that the conditions from the first one up to
some OR are true together.
-/

namespace Sift

inductive Truth where
  | false
  | unknown
  | true
deriving DecidableEq

namespace Truth

def and : Truth → Truth → Truth
  | .true, t => t
  | .false, _ => .false
  | .unknown, .false => .false
  | .unknown, _ => .unknown

def or : Truth → Truth → Truth
  | .false, t => t
  | .true, _ => .true
  | .unknown, .true => .true
  | .unknown, _ => .unknown

@[simp] theorem true_and (t : Truth) : Truth.true.and t = t := rfl

@[simp] theorem and_true (t : Truth) : t.and .true = t := by cases t <;> rfl

@[simp] theorem or_false (t : Truth) : t.or .false = t := by cases t <;> rfl

theorem and_assoc (s t u : Truth) : (s.and t).and u = s.and (t.and u) := by
  cases s <;> cases t <;> cases u <;> rfl

@[simp] theorem and_eq_true (s t : Truth) : s.and t = .true ↔ s = .true ∧ t = .true := by
  cases s <;> cases t <;> decide

@[simp] theorem or_eq_true (s t : Truth) : s.or t = .true ↔ s = .true ∨ t = .true := by
  cases s <;> cases t <;> decide

end Truth

def Connector.combine : Connector → List Truth → Truth
  | .and, ts => ts.foldr Truth.and .true
  | .or, ts => ts.foldr Truth.or .false

inductive Atom where
  | compare (column operator : String) (value : Literal)
  | isNull (column : String) (negated : Bool)
  | raw (sql : String) (bindings : List Literal)
deriving DecidableEq

namespace Condition

variable (v : Atom → Truth)

mutual

def truth : Condition → Truth
  | .compare column operator value => v (.compare column operator value)
  | .isNull column negated => v (.isNull column negated)
  | .raw sql bindings => v (.raw sql bindings)
  | .nested conditions => truthAll conditions

/-- The conditions of one group. Without any the group does not restrict. -/
def truthAll : List (Connector × Condition) → Truth
  | [] => .true
  | (_, c) :: cs => truthFrom (truth c) cs

/-- What has been read since the last OR is `sofar`. An AND adds to it, and an OR
leaves it as an alternative to all that follows. -/
def truthFrom (sofar : Truth) : List (Connector × Condition) → Truth
  | [] => sofar
  | (.and, c) :: cs => truthFrom (sofar.and (truth c)) cs
  | (.or, c) :: cs => sofar.or (truthFrom (truth c) cs)

end

def EarlierAlternative (conditions : List (Connector × Condition)) : Prop :=
  ∃ earlier c later, conditions = earlier ++ (.or, c) :: later ∧ earlier ≠ [] ∧
    truthAll v earlier = .true

theorem truthFrom_and (sofar : Truth) (cs : List Condition) :
    truthFrom v sofar (cs.map (.and, ·)) =
      sofar.and (Connector.combine .and (cs.map (truth v))) := by
  induction cs generalizing sofar with
  | nil => simp [truthFrom, Connector.combine]
  | cons c cs ih =>
    simp only [List.map_cons, truthFrom, ih, Truth.and_assoc]
    rfl

theorem truthFrom_or (sofar : Truth) (cs : List Condition) :
    truthFrom v sofar (cs.map (.or, ·)) =
      sofar.or (Connector.combine .or (cs.map (truth v))) := by
  induction cs generalizing sofar with
  | nil => simp [truthFrom, Connector.combine]
  | cons c cs ih =>
    simp only [List.map_cons, truthFrom, ih]
    rfl

theorem truthAll_map (k : Connector) (cs : List Condition) (h : cs ≠ []) :
    truthAll v (cs.map (k, ·)) = k.combine (cs.map (truth v)) := by
  obtain ⟨c, cs, rfl⟩ := List.exists_cons_of_ne_nil h
  cases k with
  | and => exact truthFrom_and v (truth v c) cs
  | or => exact truthFrom_or v (truth v c) cs

theorem truthAll_map_and (cs : List Condition) :
    truthAll v (cs.map (.and, ·)) = Connector.combine .and (cs.map (truth v)) := by
  cases cs with
  | nil => rfl
  | cons c cs => exact truthAll_map v .and (c :: cs) (by simp)

/-- A list is cut at an OR either before its first condition or behind it. -/
theorem exists_cut_cons (P : List (Connector × Condition) → Prop) (p : Connector × Condition)
    (cs : List (Connector × Condition)) :
    (∃ earlier d later, p :: cs = earlier ++ (.or, d) :: later ∧ P earlier) ↔
      (p.1 = .or ∧ P []) ∨ ∃ earlier d later, cs = earlier ++ (.or, d) :: later ∧
        P (p :: earlier) := by
  constructor
  · rintro ⟨earlier, d, later, hcut, h⟩
    cases earlier with
    | nil =>
      obtain ⟨rfl, -⟩ := List.cons.inj hcut
      exact .inl ⟨rfl, h⟩
    | cons q earlier =>
      obtain ⟨rfl, rfl⟩ := List.cons.inj hcut
      exact .inr ⟨earlier, d, later, rfl, h⟩
  · rintro (⟨hp, h⟩ | ⟨earlier, d, later, rfl, h⟩)
    · exact ⟨[], p.2, cs, by rw [← hp]; rfl, h⟩
    · exact ⟨p :: earlier, d, later, rfl, h⟩

theorem truthFrom_concat_and (sofar : Truth) (cs : List (Connector × Condition))
    (c : Condition) :
    truthFrom v sofar (cs ++ [(.and, c)]) = .true ↔
      (∃ earlier d later, cs = earlier ++ (.or, d) :: later ∧
        truthFrom v sofar earlier = .true) ∨
      (truthFrom v sofar cs = .true ∧ truth v c = .true) := by
  induction cs generalizing sofar with
  | nil => simp [truthFrom]
  | cons p cs ih =>
    obtain ⟨k, d⟩ := p
    rw [exists_cut_cons fun earlier => truthFrom v sofar earlier = .true]
    cases k with
    | and => simp only [List.cons_append, truthFrom, ih, reduceCtorEq, false_and, false_or]
    | or =>
      simp only [List.cons_append, truthFrom, ih, Truth.or_eq_true, true_and]
      by_cases hsofar : sofar = .true
      · simp only [hsofar, true_or]
      · simp only [hsofar, false_or]

/-- A condition joined by AND to the end of a list is an alternative to what stands
before the last OR and a restriction of what follows it. -/
theorem truthAll_concat_and (cs : List (Connector × Condition)) (c : Condition) :
    truthAll v (cs ++ [(.and, c)]) = .true ↔
      EarlierAlternative v cs ∨ (truthAll v cs = .true ∧ truth v c = .true) := by
  cases cs with
  | nil => simp [EarlierAlternative, truthAll, truthFrom]
  | cons p cs =>
    have hcut := exists_cut_cons (fun earlier => earlier ≠ [] ∧ truthAll v earlier = .true) p cs
    rw [EarlierAlternative, hcut]
    simp only [List.cons_append, truthAll, truthFrom_concat_and, ne_eq, not_true_eq_false,
      false_and, and_false, false_or, reduceCtorEq, not_false_eq_true, true_and]

theorem truthFrom_append_or (sofar : Truth) (earlier later : List (Connector × Condition))
    (d : Condition) (h : truthFrom v sofar earlier = .true) :
    truthFrom v sofar (earlier ++ (.or, d) :: later) = .true := by
  induction earlier generalizing sofar with
  | nil => exact (Truth.or_eq_true _ _).2 (.inl h)
  | cons p earlier ih =>
    obtain ⟨k, c⟩ := p
    cases k with
    | and => exact ih _ h
    | or =>
      simp only [List.cons_append, truthFrom, Truth.or_eq_true] at h ⊢
      exact h.imp_right (ih _)

/-- An alternative that is true makes the whole list true. -/
theorem truthAll_of_earlierAlternative {cs : List (Connector × Condition)}
    (h : EarlierAlternative v cs) : truthAll v cs = .true := by
  obtain ⟨earlier, d, later, rfl, hsome, h⟩ := h
  obtain ⟨p, earlier, rfl⟩ := List.exists_cons_of_ne_nil hsome
  exact truthFrom_append_or v _ earlier later d h

end Condition

end Sift

import Sift.Proofs.RoundTrip

/-!
# Trees that can be written

A tree that was put together by hand can be printed as well. What is printed for its
comparisons can be told apart if their fields are names, their operators are ones that can be
scanned and no value is a date. The tree is then read from its text exactly if every group
with fewer than two members is an AND group and every float is finite.

`Spelled` is the condition on a comparison, and `groups` are the groups of a tree with their
connectors and members.
-/

namespace Sift

namespace Expr

mutual

def groups : Expr → List (Connector × List Expr)
  | .comparison _ => []
  | .group k members => (k, members) :: groupsAll members

def groupsAll : List Expr → List (Connector × List Expr)
  | [] => []
  | e :: es => groups e ++ groupsAll es

end

mutual

theorem renderable_iff : (e : Expr) → (e.Renderable ↔
    (∀ g ∈ e.groups, g.2.length < 2 → g.1 = .and) ∧
      ∀ c ∈ e.leaves, ∀ x, c.value = .float x → x.isFinite)
  | .comparison c => by simp [Renderable, groups, leaves]
  | .group k members => by
    rw [Renderable, renderableAll_iff members, groups, List.forall_mem_cons, leaves, and_assoc]

theorem renderableAll_iff : (es : List Expr) → (RenderableAll es ↔
    (∀ g ∈ groupsAll es, g.2.length < 2 → g.1 = .and) ∧
      ∀ c ∈ leavesAll es, ∀ x, c.value = .float x → x.isFinite)
  | [] => by simp [RenderableAll, groupsAll, leavesAll]
  | e :: es => by
    rw [RenderableAll, renderable_iff e, renderableAll_iff es, groupsAll, leavesAll,
      List.forall_mem_append, List.forall_mem_append]
    exact and_and_and_comm

end

end Expr

/-- One of the relational operators, or one or two characters for an operator of the
caller's own. -/
def IsOperatorSymbol (s : String) : Prop :=
  s ∈ ["!=", ">=", "<=", "=", ">", "<"] ∨
    (s.length = 1 ∨ s.length = 2) ∧ ∀ c ∈ s.toList, isSymbolChar c = true

structure Comparison.Spelled (c : Comparison) : Prop where
  field_ne_empty : c.field ≠ ""
  field : ∀ x ∈ c.field.toList, isFieldChar x = true
  operator : IsOperatorSymbol c.operator
  value : ∀ t, c.value ≠ .date t

namespace Grammar

open Sift.Text Sift.Expr

theorem isOperator_iff_isOperatorSymbol (s : String) :
    IsOperator s.toList [] ↔ IsOperatorSymbol s := by
  have hfixed {t : String} (ht : t ∈ ["!=", ">=", "<=", "=", ">", "<"]) (hs : s.toList = t.toList) :
      IsOperatorSymbol s := .inl (String.toList_inj.1 hs ▸ ht)
  constructor
  · intro h
    generalize hop : s.toList = op at h
    cases h with
    | unequal => exact hfixed (t := "!=") (by simp) hop
    | atLeast => exact hfixed (t := ">=") (by simp) hop
    | atMost => exact hfixed (t := "<=") (by simp) hop
    | equal => exact hfixed (t := "=") (by simp) hop
    | greater => exact hfixed (t := ">") (by simp) hop
    | less => exact hfixed (t := "<") (by simp) hop
    | symbol hc => exact .inr ⟨.inl (by simp [← String.length_toList, hop]), by simp [hop, hc]⟩
    | symbols hc hd =>
      exact .inr ⟨.inr (by simp [← String.length_toList, hop]), by simp [hop, hc, hd]⟩
  · rintro (h | ⟨h | h, hs⟩)
    · simp only [List.mem_cons, List.not_mem_nil, or_false] at h
      obtain rfl | rfl | rfl | rfl | rfl | rfl := h
      · exact .unequal
      · exact .atLeast
      · exact .atMost
      · exact .equal
      · exact .greater trivial
      · exact .less trivial
    · rw [← String.length_toList, List.length_eq_one_iff] at h
      obtain ⟨c, hop⟩ := h
      rw [hop] at hs ⊢
      exact .symbol (hs c (by simp)) trivial fun _ => trivial
    · rw [← String.length_toList, List.length_eq_two] at h
      obtain ⟨c, d, hop⟩ := h
      rw [hop] at hs ⊢
      exact .symbols (hs c (by simp)) (hs d (by simp))

/-- These operators are the ones that can be scanned in front of a text. -/
theorem isOperatorSymbol_iff_exists_operatorLength (s : String) :
    IsOperatorSymbol s ↔
      ∃ text, operatorLength text ≠ 0 ∧ s.toList = text.take (operatorLength text) := by
  rw [← isOperator_iff_isOperatorSymbol]
  constructor
  · intro h
    have hlength := operatorLength_append h
    rw [List.append_nil] at hlength
    refine ⟨s.toList, ?_, ?_⟩
    · have hpos := h.length_pos
      omega
    · rw [hlength, List.take_length]
  · rintro ⟨text, hsome, hs⟩
    obtain ⟨op, after, rfl, hlength, hop⟩ := isOperator_of_operatorLength hsome
    rw [hs, ← hlength, List.take_left]
    exact hop.alone

theorem isWritable_of_spelled {c : Comparison} (h : c.Spelled) : IsWritable c :=
  ⟨by simpa using h.field_ne_empty, h.field, (isOperator_iff_isOperatorSymbol _).2 h.operator,
    h.value⟩

/-- A tree comes back from its text exactly if no group loses its connector and no float is
beyond the finite ones. Nothing else is lost, not even the sign of a zero. -/
theorem parse_text_eq_ok_iff_of_spelled {o : ParseOptions} {e : Expr}
    (hroot : ∃ k members, e = .group k members) (hspelled : ∀ c ∈ e.leaves, c.Spelled)
    (hdepth : e.depth ≤ o.maxDepth) :
    Expr.parse o e.text = .ok e ↔
      (∀ g ∈ e.groups, g.2.length < 2 → g.1 = .and) ∧
        ∀ c ∈ e.leaves, ∀ x, c.value = .float x → x.isFinite := by
  obtain ⟨k, members, rfl⟩ := hroot
  have hwritable : ∀ c ∈ leavesAll members, IsWritable c := fun c hc =>
    isWritable_of_spelled (hspelled c hc)
  rw [parse_text_group_iff hwritable hdepth, renderable_iff]

def intricate (x : Binary64) : Expr :=
  .group .or [.comparison ⟨"a.b", "!", .string "it's \\ (a|b)"⟩, .group .and [],
    .group .and [.comparison ⟨"_1", ">=", .float x⟩, .comparison ⟨"x", "~*", .int (-7)⟩]]

theorem parse_text_intricate :
    Expr.parse ⟨true, 2⟩ (intricate (.zero true)).text = .ok (intricate (.zero true)) ∧
      Expr.parse ⟨false, 2⟩ (intricate (.infinity true)).text ≠
        .ok (intricate (.infinity true)) := by
  have hspelled (x : Binary64) : ∀ c ∈ (intricate x).leaves, c.Spelled := by
    intro c hc
    simp only [intricate, leaves, leavesAll, List.append_nil, List.cons_append, List.nil_append,
      List.mem_cons, List.not_mem_nil, or_false] at hc
    obtain rfl | rfl | rfl := hc
    · exact ⟨by decide, List.all_eq_true.1 (by decide), .inr ⟨.inl rfl,
        List.all_eq_true.1 (by decide)⟩, fun _ => Literal.noConfusion⟩
    · have hfield : "_1" ≠ "" ∧ "_1".toList.all isFieldChar = true := by decide
      exact ⟨hfield.1, List.all_eq_true.1 hfield.2, .inl (by simp), fun _ => Literal.noConfusion⟩
    · exact ⟨by decide, List.all_eq_true.1 (by decide), .inr ⟨.inr rfl,
        List.all_eq_true.1 (by decide)⟩, fun _ => Literal.noConfusion⟩
  have hroot (x : Binary64) : ∃ k members, intricate x = .group k members := ⟨_, _, rfl⟩
  constructor
  · refine (parse_text_eq_ok_iff_of_spelled (hroot _) (hspelled _) (by decide)).2 ⟨?_, ?_⟩
    · decide
    · simp [intricate, leaves, leavesAll, Binary64.isFinite, Binary64.zero]
  · intro hagain
    obtain ⟨-, hfinite⟩ :=
      (parse_text_eq_ok_iff_of_spelled (hroot _) (hspelled _) (by decide)).1 hagain
    have hinfinite := hfinite ⟨"_1", ">=", .float (.infinity true)⟩
      (by simp [intricate, leaves, leavesAll]) _ rfl
    exact absurd hinfinite (by decide)

end Grammar

end Sift

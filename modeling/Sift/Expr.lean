import Sift.Literal

/-!
# Filter expressions

An expression is a comparison or a group of expressions under one connector. A
group may have any number of members, and with fewer than two the connector
still counts as part of it.
-/

namespace Sift

inductive Connector where
  | and
  | or
deriving DecidableEq

namespace Connector

def name : Connector → String
  | .and => "and"
  | .or => "or"

def glyph : Connector → Char
  | .and => '&'
  | .or => '|'

end Connector

def isFieldChar (c : Char) : Bool :=
  Text.isLetter c || Text.isDigit c || c = '_' || c = '.'

structure Comparison where
  field : String
  operator : String
  value : Literal
deriving DecidableEq

inductive Expr where
  | comparison (c : Comparison)
  | group (connector : Connector) (members : List Expr)

namespace Expr

mutual

def decEq : (a b : Expr) → Decidable (a = b)
  | .comparison c, .comparison d =>
    if h : c = d then .isTrue (by rw [h]) else .isFalse (by simp [h])
  | .group c ms, .group d ns =>
    if h : c = d then
      match decEqAll ms ns with
      | .isTrue hm => .isTrue (by rw [h, hm])
      | .isFalse hm => .isFalse (by simp [hm])
    else .isFalse (by simp [h])
  | .comparison _, .group _ _ => .isFalse (by simp)
  | .group _ _, .comparison _ => .isFalse (by simp)

def decEqAll : (as bs : List Expr) → Decidable (as = bs)
  | [], [] => .isTrue rfl
  | a :: as, b :: bs =>
    match decEq a b with
    | .isTrue h =>
      match decEqAll as bs with
      | .isTrue ht => .isTrue (by rw [h, ht])
      | .isFalse ht => .isFalse (by simp [ht])
    | .isFalse h => .isFalse (by simp [h])
  | [], _ :: _ => .isFalse (by simp)
  | _ :: _, [] => .isFalse (by simp)

end

instance : DecidableEq Expr := decEq

mutual

def leaves : Expr → List Comparison
  | .comparison c => [c]
  | .group _ members => leavesAll members

def leavesAll : List Expr → List Comparison
  | [] => []
  | e :: es => leaves e ++ leavesAll es

end

theorem forall_mem_leavesAll_cons {p : Comparison → Prop} {e : Expr} {es : List Expr} :
    (∀ c ∈ leavesAll (e :: es), p c) ↔ (∀ c ∈ e.leaves, p c) ∧ ∀ c ∈ leavesAll es, p c := by
  rw [leavesAll, List.forall_mem_append]

mutual

/-- The number of groups around the deepest leaf. -/
def depth : Expr → Nat
  | .comparison _ => 0
  | .group _ members => 1 + depthAll members

def depthAll : List Expr → Nat
  | [] => 0
  | e :: es => max (depth e) (depthAll es)

end

end Expr

end Sift

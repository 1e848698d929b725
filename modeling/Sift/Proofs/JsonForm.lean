import Mathlib.Control.Monad.Basic
import Sift.Proofs.JsonReading
import Sift.Proofs.RoundTrip

/-!
# The JSON form of a tree

A group is an object of one member under the name of its connector, also if it has one member
or none, and a comparison is an array of three. A tree is decoded by reading its text as JSON
and undoing that. Nothing is lost: a tree that was parsed is found again in both layouts, with
every value of the kind that it had. Only floats beyond the finite ones have no text of their
own.
-/

namespace Sift

def Connector.ofName? (name : String) : Option Connector :=
  if name = Connector.and.name then some .and
  else if name = Connector.or.name then some .or
  else none

def Literal.ofJson? : Json → Option Literal
  | .string s => some (.string s)
  | .int i => if (Int64.ofInt i).toInt = i then some (.int (Int64.ofInt i)) else none
  | .float x => some (.float x)
  | .bool b => some (.bool b)
  | .null => some .null
  | _ => none

theorem Connector.ofName?_name (k : Connector) : ofName? k.name = some k := by
  cases k <;> decide

theorem Literal.ofJson?_toJson {l : Literal} (h : ∀ t, l ≠ .date t) :
    ofJson? l.toJson = some l := by
  cases l with
  | int i => simp [toJson, ofJson?]
  | date t => exact absurd rfl (h t)
  | string => rfl
  | float => rfl
  | bool => rfl
  | null => rfl

namespace Expr

mutual

def ofJson? : Json → Option Expr
  | .array [.string field, .string operator, v] =>
    (Literal.ofJson? v).map fun value => .comparison ⟨field, operator, value⟩
  | .object [(name, .array members)] => do
    let connector ← Connector.ofName? name
    (ofJsonAll? members).map (.group connector)
  | _ => none

def ofJsonAll? : List Json → Option (List Expr)
  | [] => some []
  | v :: vs => do
    let e ← ofJson? v
    (ofJsonAll? vs).map (e :: ·)

end

/-- The tree whose JSON text, in any layout, this is. -/
def decode? (s : String) : Option Expr := (Json.read? s).bind ofJson?

mutual

theorem ofJson?_toJson : (e : Expr) → (∀ c ∈ e.leaves, ∀ t, c.value ≠ .date t) →
    ofJson? e.toJson = some e
  | .comparison c, h => by
    have hvalue := Literal.ofJson?_toJson (h c (by simp [leaves]))
    simp [toJson, Comparison.toJson, ofJson?, hvalue]
  | .group k members, h => by
    have hmembers := ofJsonAll?_toJsonAll members h
    simp [toJson, ofJson?, Connector.ofName?_name, hmembers]

theorem ofJsonAll?_toJsonAll : (es : List Expr) →
    (∀ c ∈ leavesAll es, ∀ t, c.value ≠ .date t) → ofJsonAll? (toJsonAll es) = some es
  | [], _ => rfl
  | e :: es, h => by
    obtain ⟨hleaves, hothers⟩ := forall_mem_leavesAll_cons.1 h
    simp [toJsonAll, ofJsonAll?, ofJson?_toJson e hleaves, ofJsonAll?_toJsonAll es hothers]

end

theorem allFinite_literal {l : Literal} (h : ∀ x, l = .float x → x.isFinite) :
    l.toJson.AllFinite := by
  cases l with
  | float x => exact h x rfl
  | _ => trivial

mutual

theorem allFinite_toJson : (e : Expr) →
    (∀ c ∈ e.leaves, ∀ x, c.value = .float x → x.isFinite) → e.toJson.AllFinite
  | .comparison c, h => ⟨trivial, trivial, allFinite_literal (h c (by simp [leaves])), trivial⟩
  | .group _ members, h => ⟨allFinite_toJsonAll members h, trivial⟩

theorem allFinite_toJsonAll : (es : List Expr) →
    (∀ c ∈ leavesAll es, ∀ x, c.value = .float x → x.isFinite) →
    Json.AllFiniteElements (toJsonAll es)
  | [], _ => trivial
  | e :: es, h => by
    obtain ⟨hleaves, hothers⟩ := forall_mem_leavesAll_cons.1 h
    exact ⟨allFinite_toJson e hleaves, allFinite_toJsonAll es hothers⟩

end

/-- The JSON text of a parsed tree, compact or indented, is decoded to that tree. -/
theorem decode?_toJson_of_parse {o : ParseOptions} {s : String} {e : Expr}
    (h : Expr.parse o s = .ok e) (hfinite : ∀ c ∈ e.leaves, ∀ x, c.value = .float x → x.isFinite) :
    decode? e.toJson.text = some e ∧ decode? e.toJson.prettyText = some e := by
  obtain ⟨k, members, rfl, hwritable, -⟩ := Grammar.exists_group_of_parse h
  have hread := allFinite_toJson _ hfinite
  have htree : ofJson? (Expr.group k members).toJson = some (.group k members) :=
    ofJson?_toJson _ fun c hc => (hwritable c hc).value
  constructor
  · rw [decode?, Json.read?_text hread, Option.bind_some, htree]
  · rw [decode?, Json.read?_prettyText hread, Option.bind_some, htree]

/-- Equal numbers and equal words of two kinds, a group of one member and an empty one, a quote in
a string and a float with an exponent. -/
theorem decode?_toJson_of_parse_kinds :
    ∃ e, Expr.parse .default "a=1&b=1.0&c=true&(d='true'|)&()&e='\"'&f=100000000000000000000" =
        .ok e ∧
      e.toJson.text = "\x7b\"and\":[[\"a\",\"=\",1],[\"b\",\"=\",1.0],[\"c\",\"=\",true]," ++
        "\x7b\"or\":[[\"d\",\"=\",\"true\"]]\x7d,\x7b\"and\":[]\x7d,[\"e\",\"=\",\"\\\"\"]," ++
        "[\"f\",\"=\",1e+20]]\x7d" ∧
      decode? e.toJson.text = some e ∧ decode? e.toJson.prettyText = some e := by
  have h : Expr.parse .default
      "a=1&b=1.0&c=true&(d='true'|)&()&e='\"'&f=100000000000000000000" =
      .ok (.group .and [.comparison ⟨"a", "=", .int 1⟩,
        .comparison ⟨"b", "=", .float (Binary64.ofInt 1)⟩, .comparison ⟨"c", "=", .bool true⟩,
        .group .or [.comparison ⟨"d", "=", .string "true"⟩], .group .and [],
        .comparison ⟨"e", "=", .string "\""⟩,
        .comparison ⟨"f", "=", .float (Binary64.ofInt 100000000000000000000)⟩]) := by
    decide +kernel
  refine ⟨_, h, by decide +kernel, decode?_toJson_of_parse h ?_⟩
  have hone : (Binary64.ofInt 1).isFinite := by decide +kernel
  have hlarge : (Binary64.ofInt 100000000000000000000).isFinite := by decide +kernel
  simp [leaves, leavesAll, hone, hlarge]

end Expr

end Sift

import Sift.CommandLine.Outcome
import Sift.Proofs.JsonForm
import Sift.Proofs.Spelling

/-!
# The outline of a tree

An outline has a line for each node, and only the indentation tells which group a node is in.
No line end and no space can come from a name, an operator or a value except inside the JSON
text at the end of a line. So the outline falls into its lines again, a line gives back the
level and the node, and the levels give back the groups.

`nodes` are in preorder with their levels. A `line` is two spaces for each level and then the
`heading`, which is a connector or the three parts of a comparison.
-/

namespace Sift

open Sift.Text Sift.Grammar

namespace Json

theorem newline_not_mem_escapeChar (c : Char) : '\n' ∉ escapeChar c := by
  by_cases hnamed : c ∈ ['"', '\\', '\x08', '\t', '\n', '\x0c', '\r']
  · have hall : ∀ c ∈ ['"', '\\', '\x08', '\t', '\n', '\x0c', '\r'], '\n' ∉ escapeChar c :=
      forall_mem_of_all (by decide)
    exact hall c hnamed
  simp only [List.mem_cons, List.not_mem_nil, or_false, not_or] at hnamed
  obtain ⟨h1, h2, h3, h4, h5, h6, h7⟩ := hnamed
  simp only [escapeChar, h1, h2, h3, h4, h5, h6, h7, if_false]
  split
  · next hcontrol =>
    have hall : ∀ n < 0x20,
        '\n' ∉ ['\\', 'u', '0', '0', hexDigit (n / 16), hexDigit (n % 16)] := by decide
    exact hall c.toNat hcontrol
  · exact fun hmem => h5 (List.mem_singleton.1 hmem).symm

theorem newline_not_mem_quote (s : String) : '\n' ∉ quote s := by
  have hescaped : '\n' ∉ s.toList.flatMap escapeChar := by
    intro hmem
    obtain ⟨c, -, hc⟩ := List.mem_flatMap.1 hmem
    exact newline_not_mem_escapeChar c hc
  simp [quote, hescaped]

theorem newline_not_mem_scalarText (v : Json) : '\n' ∉ v.scalarText := by
  cases v with
  | string s => exact newline_not_mem_quote s
  | int i => exact not_mem_of_run (run_isPlain_digitsOfInt i) (by decide)
  | float x =>
    rw [scalarText]
    split
    · exact not_mem_of_run (run_isPlain_jsonText x) (by decide)
    · decide
  | bool b => cases b <;> decide
  | null => decide
  | array vs => exact (by decide : '\n' ∉ "null".toList)
  | object ms => exact (by decide : '\n' ∉ "null".toList)

end Json

theorem Literal.newline_not_mem_compact (l : Literal) : '\n' ∉ l.toJson.compact := by
  have hscalar : l.toJson.compact = l.toJson.scalarText := by
    cases l <;> rfl
  rw [hscalar]
  exact Json.newline_not_mem_scalarText _

/-- A value that can be written is told by its JSON text. -/
theorem Literal.eq_of_compact_eq {l l' : Literal} (hdate : ∀ t, l ≠ .date t)
    (hdate' : ∀ t, l' ≠ .date t) (hfinite : ∀ x, l = .float x → x.isFinite)
    (hfinite' : ∀ x, l' = .float x → x.isFinite) (h : l.toJson.compact = l'.toJson.compact) :
    l = l' := by
  have htext : l.toJson.text = l'.toJson.text := congrArg String.ofList h
  have hread := Json.read?_text (Expr.allFinite_literal hfinite)
  rw [htext, Json.read?_text (Expr.allFinite_literal hfinite')] at hread
  have hvalue := Literal.ofJson?_toJson hdate
  rw [← Option.some.inj hread, Literal.ofJson?_toJson hdate'] at hvalue
  exact (Option.some.inj hvalue).symm

namespace Expr

/-- A node without what is below it. -/
inductive Node where
  | group (connector : Connector)
  | comparison (c : Comparison)

mutual

def nodes (level : Nat) : Expr → List (Nat × Node)
  | .comparison c => [(level, .comparison c)]
  | .group k members => (level, .group k) :: nodesAll (level + 1) members

def nodesAll (level : Nat) : List Expr → List (Nat × Node)
  | [] => []
  | e :: es => nodes level e ++ nodesAll level es

end

namespace Node

def heading : Node → List Char
  | .group k => k.name.toList
  | .comparison c =>
    c.field.toList ++ ' ' :: (c.operator.toList ++ ' ' :: c.value.toJson.compact)

def line (entry : Nat × Node) : List Char :=
  List.replicate (2 * entry.1) ' ' ++ entry.2.heading

def Writable : Node → Prop
  | .group _ => True
  | .comparison c => IsWritable c

def Finite : Node → Prop
  | .group _ => True
  | .comparison c => ∀ x, c.value = .float x → x.isFinite

end Node

mutual

theorem outline_eq (level : Nat) : (e : Expr) →
    e.outline level = (e.nodes level).flatMap fun entry => Node.line entry ++ ['\n']
  | .comparison c => by
    simp [outline, outlineLine, nodes, Node.line, Node.heading, List.intercalate_cons_cons]
  | .group k members => by
    have hmembers := outlineAll_eq (level + 1) members
    simp [outline, outlineLine, nodes, Node.line, Node.heading, hmembers]

theorem outlineAll_eq (level : Nat) : (es : List Expr) →
    outlineAll level es = (nodesAll level es).flatMap fun entry => Node.line entry ++ ['\n']
  | [] => rfl
  | e :: es => by
    rw [outlineAll, nodesAll, List.flatMap_append, outline_eq level e, outlineAll_eq level es]

end

mutual

/-- Each group and each comparison is a node once. -/
theorem length_nodes (level : Nat) : (e : Expr) →
    (e.nodes level).length = e.groups.length + e.leaves.length
  | .comparison c => rfl
  | .group k members => by
    have hmembers := length_nodesAll (level + 1) members
    simp only [nodes, groups, leaves, List.length_cons]
    omega

theorem length_nodesAll (level : Nat) : (es : List Expr) →
    (nodesAll level es).length = (groupsAll es).length + (leavesAll es).length
  | [] => rfl
  | e :: es => by
    have hfirst := length_nodes level e
    have hothers := length_nodesAll level es
    simp only [nodesAll, groupsAll, leavesAll, List.length_append]
    omega

end

mutual

theorem forall_mem_nodes {P : Node → Prop} (hgroup : ∀ k, P (.group k)) (level : Nat) :
    (e : Expr) → (∀ c ∈ e.leaves, P (.comparison c)) → ∀ entry ∈ e.nodes level, P entry.2
  | .comparison c, h => by simpa [nodes, leaves] using h
  | .group k members, h => by
    rw [nodes, List.forall_mem_cons]
    exact ⟨hgroup k, forall_mem_nodesAll hgroup (level + 1) members h⟩

theorem forall_mem_nodesAll {P : Node → Prop} (hgroup : ∀ k, P (.group k)) (level : Nat) :
    (es : List Expr) → (∀ c ∈ leavesAll es, P (.comparison c)) →
      ∀ entry ∈ nodesAll level es, P entry.2
  | [], _ => by simp [nodesAll]
  | e :: es, h => by
    obtain ⟨hleaves, hothers⟩ := forall_mem_leavesAll_cons.1 h
    rw [nodesAll, List.forall_mem_append]
    exact ⟨forall_mem_nodes hgroup level e hleaves, forall_mem_nodesAll hgroup level es hothers⟩

end

/-- The nodes that follow are outside of what is at the level or deeper. -/
def Leaves (level : Nat) (rest : List (Nat × Node)) : Prop := ∀ entry ∈ rest.head?, entry.1 < level

theorem leaves_nodes_append (level : Nat) (e : Expr) (rest : List (Nat × Node)) :
    Leaves (level + 1) (e.nodes level ++ rest) := by
  cases e <;> simp [Leaves, nodes]

theorem leaves_nodesAll_append {level : Nat} (es : List Expr) {rest : List (Nat × Node)}
    (hrest : Leaves level rest) : Leaves (level + 1) (nodesAll level es ++ rest) := by
  cases es with
  | nil => exact fun entry hentry => Nat.lt_succ_of_lt (hrest entry hentry)
  | cons e es =>
    rw [nodesAll, List.append_assoc]
    exact leaves_nodes_append level e _

theorem not_leaves_nodesAll (level : Nat) (e : Expr) (es : List Expr) (rest : List (Nat × Node)) :
    ¬ Leaves level (nodesAll level (e :: es) ++ rest) := by
  cases e <;> simp [Leaves, nodesAll, nodes]

mutual

theorem eq_of_nodes_append (level : Nat) : (e e' : Expr) → {rest rest' : List (Nat × Node)} →
    Leaves (level + 1) rest → Leaves (level + 1) rest' →
    e.nodes level ++ rest = e'.nodes level ++ rest' → e = e' ∧ rest = rest'
  | .comparison c, .comparison c', rest, rest', _, _, h => by
    simpa [nodes] using h
  | .comparison _, .group _ _, _, _, _, _, h => by simp [nodes] at h
  | .group _ _, .comparison _, _, _, _, _, h => by simp [nodes] at h
  | .group k members, .group k' members', rest, rest', hrest, hrest', h => by
    simp only [nodes, List.cons_append, List.cons.injEq, Prod.mk.injEq, Node.group.injEq,
      true_and] at h
    obtain ⟨rfl, rfl⟩ := eq_of_nodesAll_append (level + 1) members members' hrest hrest' h.2
    rw [h.1]
    exact ⟨rfl, rfl⟩

/-- The members of a group end where the next node is not deeper than the group. -/
theorem eq_of_nodesAll_append (level : Nat) : (es es' : List Expr) →
    {rest rest' : List (Nat × Node)} → Leaves level rest → Leaves level rest' →
    nodesAll level es ++ rest = nodesAll level es' ++ rest' → es = es' ∧ rest = rest'
  | [], [], _, _, _, _, h => ⟨rfl, h⟩
  | [], e' :: es', rest, rest', hrest, _, h => by
    rw [show rest = nodesAll level (e' :: es') ++ rest' from h] at hrest
    exact absurd hrest (not_leaves_nodesAll level e' es' rest')
  | e :: es, [], rest, rest', _, hrest', h => by
    rw [show rest' = nodesAll level (e :: es) ++ rest from h.symm] at hrest'
    exact absurd hrest' (not_leaves_nodesAll level e es rest)
  | e :: es, e' :: es', rest, rest', hrest, hrest', h => by
    rw [nodesAll, nodesAll, List.append_assoc, List.append_assoc] at h
    obtain ⟨rfl, hothers⟩ := eq_of_nodes_append level e e' (leaves_nodesAll_append es hrest)
      (leaves_nodesAll_append es' hrest') h
    obtain ⟨rfl, rfl⟩ := eq_of_nodesAll_append level es es' hrest hrest' hothers
    exact ⟨rfl, rfl⟩

end

theorem eq_of_nodes_eq {level : Nat} {e e' : Expr} (h : e.nodes level = e'.nodes level) :
    e = e' := by
  have hnone : Leaves (level + 1) [] := by simp [Leaves]
  exact (eq_of_nodes_append level e e' hnone hnone (by rw [h])).1

namespace Node

theorem space_not_mem_field {c : Comparison} (h : IsWritable c) : ' ' ∉ c.field.toList :=
  not_mem_of_run h.field (by decide)

theorem space_not_mem_operator {c : Comparison} (h : IsWritable c) : ' ' ∉ c.operator.toList :=
  not_mem_of_run h.operator.run (by decide)

theorem newline_not_mem_heading {n : Node} (h : n.Writable) : '\n' ∉ n.heading := by
  cases n with
  | group k => cases k <;> decide
  | comparison c =>
    have hfield : '\n' ∉ c.field.toList := not_mem_of_run h.field (by decide)
    have hoperator : '\n' ∉ c.operator.toList := not_mem_of_run h.operator.run (by decide)
    simp [heading, hfield, hoperator, c.value.newline_not_mem_compact]

theorem newline_not_mem_line {entry : Nat × Node} (h : entry.2.Writable) : '\n' ∉ line entry := by
  simp [line, newline_not_mem_heading h]

theorem stops_heading {n : Node} (h : n.Writable) : Stops (· = ' ') n.heading := by
  cases n with
  | group k =>
    cases k with
    | and => exact (by decide : decide ('a' = ' ') = false)
    | or => exact (by decide : decide ('o' = ' ') = false)
  | comparison c =>
    refine stops_append h.field_ne_nil ?_
    obtain ⟨x, xs, hfield⟩ := List.exists_cons_of_ne_nil h.field_ne_nil
    have hspace := space_not_mem_field h
    rw [hfield, List.mem_cons, not_or] at hspace
    rw [hfield, stops_cons]
    exact decide_eq_false (Ne.symm hspace.1)

theorem run_spaces (n : Nat) : Run (· = ' ') (List.replicate n ' ') :=
  fun _ hc => decide_eq_true (List.mem_replicate.1 hc).2

/-- The heading begins where the spaces end. -/
theorem takeWhile_line {entry : Nat × Node} (h : entry.2.Writable) :
    (line entry).takeWhile (· = ' ') = List.replicate (2 * entry.1) ' ' :=
  takeWhile_run (run_spaces _) (stops_heading h)

theorem dropWhile_line {entry : Nat × Node} (h : entry.2.Writable) :
    (line entry).dropWhile (· = ' ') = entry.2.heading :=
  dropWhile_run (run_spaces _) (stops_heading h)

/-- Only the line of a comparison has a space after the first word. -/
theorem space_mem_heading {n : Node} : ' ' ∈ n.heading ↔ ∃ c, n = .comparison c := by
  cases n with
  | group k => cases k <;> simp [heading, Connector.name]
  | comparison c => simp [heading]

theorem takeWhile_before_space {word : List Char} (h : ' ' ∉ word) (rest : List Char) :
    (word ++ ' ' :: rest).takeWhile (· ≠ ' ') = word ∧
      (word ++ ' ' :: rest).dropWhile (· ≠ ' ') = ' ' :: rest := by
  have hrun : Run (fun c => decide (c ≠ ' ')) word := fun _ hc =>
    decide_eq_true (ne_of_mem_of_not_mem hc h)
  have hstop : Stops (fun c => decide (c ≠ ' ')) (' ' :: rest) := by simp
  exact ⟨takeWhile_run hrun hstop, dropWhile_run hrun hstop⟩

/-- Words without spaces are cut off at the first space. -/
theorem append_space_inj {word word' rest rest' : List Char} (h : ' ' ∉ word) (h' : ' ' ∉ word')
    (heq : word ++ ' ' :: rest = word' ++ ' ' :: rest') : word = word' ∧ rest = rest' := by
  obtain ⟨hword, hrest⟩ := takeWhile_before_space h rest
  obtain ⟨hword', hrest'⟩ := takeWhile_before_space h' rest'
  rw [heq, hword'] at hword
  rw [heq, hrest'] at hrest
  exact ⟨hword.symm, (List.cons.inj hrest).2.symm⟩

theorem eq_of_heading_eq {n n' : Node} (h : n.Writable) (h' : n'.Writable) (hfinite : n.Finite)
    (hfinite' : n'.Finite) (heq : n.heading = n'.heading) : n = n' := by
  have hkind : (∃ c, n = .comparison c) ↔ ∃ c, n' = .comparison c := by
    rw [← space_mem_heading, ← space_mem_heading, heq]
  cases n with
  | group k =>
    cases n' with
    | group k' =>
      have hname : k.name = k'.name := String.toList_inj.1 heq
      have hread := Connector.ofName?_name k
      rw [hname, Connector.ofName?_name] at hread
      rw [Option.some.inj hread]
    | comparison c' => simp at hkind
  | comparison c =>
    cases n' with
    | group k' => simp at hkind
    | comparison c' =>
      obtain ⟨hfield, hrest⟩ :=
        append_space_inj (space_not_mem_field h) (space_not_mem_field h') heq
      obtain ⟨hoperator, hvalue⟩ :=
        append_space_inj (space_not_mem_operator h) (space_not_mem_operator h') hrest
      have hliteral := Literal.eq_of_compact_eq h.value h'.value hfinite hfinite' hvalue
      obtain ⟨field, operator, value⟩ := c
      obtain ⟨field', operator', value'⟩ := c'
      obtain rfl : field = field' := String.toList_inj.1 hfield
      obtain rfl : operator = operator' := String.toList_inj.1 hoperator
      obtain rfl : value = value' := hliteral
      rfl

theorem eq_of_line_eq {entry entry' : Nat × Node} (h : entry.2.Writable) (h' : entry'.2.Writable)
    (hfinite : entry.2.Finite) (hfinite' : entry'.2.Finite) (heq : line entry = line entry') :
    entry = entry' := by
  have hspaces := takeWhile_line h
  rw [heq, takeWhile_line h'] at hspaces
  have hheading := dropWhile_line h
  rw [heq, dropWhile_line h'] at hheading
  have hlevel : 2 * entry'.1 = 2 * entry.1 := by
    simpa using congrArg List.length hspaces
  exact Prod.ext (by omega) (eq_of_heading_eq h h' hfinite hfinite' hheading.symm)

end Node

/-- Lists of lines are told apart line by line. -/
theorem eq_of_map_eq_of_injOn {α β : Type} {f : α → β} {l l' : List α}
    (hinj : ∀ a ∈ l, ∀ b ∈ l', f a = f b → a = b) (h : l.map f = l'.map f) : l = l' := by
  induction l generalizing l' with
  | nil => exact (List.map_eq_nil_iff.1 h.symm).symm
  | cons a l ih =>
    obtain ⟨b, l', rfl, hab, htail⟩ := List.map_eq_cons_iff.1 h.symm
    rw [hinj a List.mem_cons_self b List.mem_cons_self hab.symm]
    rw [ih (fun x hx y hy => hinj x (List.mem_cons_of_mem _ hx) y (List.mem_cons_of_mem _ hy))
      htail.symm]

/-- Lines that are ended by line ends fall apart at these. -/
theorem splitAt_lines {lines : List (List Char)} (h : ∀ line ∈ lines, '\n' ∉ line) :
    splitAt '\n' (lines.flatMap (· ++ ['\n'])) = lines ++ [[]] := by
  induction lines with
  | nil => rfl
  | cons line lines ih =>
    obtain ⟨hline, hlines⟩ := List.forall_mem_cons.1 h
    have hrun : Run (fun c => !decide (c = '\n')) line := fun c hc => by
      simpa using ne_of_mem_of_not_mem hc hline
    have hrest := ih hlines
    rw [splitAt] at hrest ⊢
    rw [List.flatMap_cons, List.append_assoc, List.singleton_append,
      splitWhere_append hrun (by simp), hrest, List.cons_append]

variable {e e' : Expr}

theorem writable_nodes {o : ParseOptions} {s : String} (h : Expr.parse o s = .ok e) :
    ∀ entry ∈ e.nodes 0, entry.2.Writable := by
  obtain ⟨k, members, rfl, hwritable, -⟩ := exists_group_of_parse h
  exact forall_mem_nodes (P := Node.Writable) (fun _ => trivial) 0 (.group k members) hwritable

theorem finite_nodes (h : ∀ c ∈ e.leaves, ∀ x, c.value = .float x → x.isFinite) :
    ∀ entry ∈ e.nodes 0, entry.2.Finite :=
  forall_mem_nodes (P := Node.Finite) (fun _ => trivial) 0 e h

theorem splitAt_outline (h : ∀ entry ∈ e.nodes 0, entry.2.Writable) :
    splitAt '\n' (e.outline 0) = (e.nodes 0).map Node.line ++ [[]] := by
  have hlines : ∀ line ∈ (e.nodes 0).map Node.line, '\n' ∉ line := by
    intro line hline
    obtain ⟨entry, hentry, rfl⟩ := List.mem_map.1 hline
    exact Node.newline_not_mem_line (h entry hentry)
  have hsplit := splitAt_lines hlines
  rwa [List.flatMap_map, ← outline_eq] at hsplit

theorem toList_printed_tree (e : Expr) : (Command.printed .tree e).toList = e.outline 0 :=
  String.toList_ofList

/-- The outline of a parsed tree has one line for each node in preorder, with two spaces for
each level and no more, and falls into these lines at its line ends. Trees without infinite
floats are told apart by their outlines. -/
theorem outline_faithful {o : ParseOptions} {s : String} (h : Expr.parse o s = .ok e) :
    ((Command.printed .tree e).toList =
        (e.nodes 0).flatMap (fun entry => Node.line entry ++ ['\n']) ∧
      splitAt '\n' (Command.printed .tree e).toList = (e.nodes 0).map Node.line ++ [[]] ∧
      (e.nodes 0).length = e.groups.length + e.leaves.length ∧
      ∀ entry ∈ e.nodes 0,
        (Node.line entry).takeWhile (· = ' ') = List.replicate (2 * entry.1) ' ') ∧
    ∀ o' s' e', Expr.parse o' s' = .ok e' →
      (∀ c ∈ e.leaves, ∀ x, c.value = .float x → x.isFinite) →
      (∀ c ∈ e'.leaves, ∀ x, c.value = .float x → x.isFinite) →
      (Command.printed .tree e = Command.printed .tree e' ↔ e = e') := by
  have hwritable := writable_nodes h
  simp only [toList_printed_tree]
  refine ⟨⟨outline_eq 0 e, splitAt_outline hwritable, length_nodes 0 e, fun entry hentry =>
    Node.takeWhile_line (hwritable entry hentry)⟩, ?_⟩
  intro o' s' e' h' hfinite hfinite'
  refine ⟨fun hsame => ?_, fun heq => by rw [heq]⟩
  have hwritable' := writable_nodes h'
  have hlines := splitAt_outline hwritable
  rw [← toList_printed_tree, hsame, toList_printed_tree, splitAt_outline hwritable',
    List.append_cancel_right_eq] at hlines
  refine eq_of_nodes_eq (eq_of_map_eq_of_injOn (fun entry hentry entry' hentry' => ?_) hlines.symm)
  exact Node.eq_of_line_eq (hwritable entry hentry) (hwritable' entry' hentry')
    (finite_nodes hfinite entry hentry) (finite_nodes hfinite' entry' hentry')

/-- A string with a line end in it stays on its line, and so it cannot pass for a group. -/
theorem outline_faithful_lineEnd :
    let e : Expr := .group .and [.comparison ⟨"a", "=", .string "x\n  or"⟩,
      .group .or [.comparison ⟨"b", "=", .int 1⟩]]
    let e' : Expr := .group .and [.comparison ⟨"a", "=", .string "x"⟩, .group .or [],
      .group .or [.comparison ⟨"b", "=", .int 1⟩]]
    Expr.parse .default "a='x\n  or'&(b=1|)" = .ok e ∧
      Expr.parse .default "a='x'&(|)&(b=1|)" = .ok e' ∧
      Command.printed .tree e = "and\n  a = \"x\\n  or\"\n  or\n    b = 1\n" ∧
      splitAt '\n' (Command.printed .tree e).toList = (e.nodes 0).map Node.line ++ [[]] ∧
      Command.printed .tree e ≠ Command.printed .tree e' := by
  intro e e'
  have h : Expr.parse .default "a='x\n  or'&(b=1|)" = .ok e := by decide +kernel
  have h' : Expr.parse .default "a='x'&(|)&(b=1|)" = .ok e' := by decide +kernel
  have hfinite : ∀ c ∈ e.leaves, ∀ x, c.value = .float x → x.isFinite := by
    simp [e, leaves, leavesAll]
  have hfinite' : ∀ c ∈ e'.leaves, ∀ x, c.value = .float x → x.isFinite := by
    simp [e', leaves, leavesAll]
  have hne : e ≠ e' := by decide
  obtain ⟨⟨-, hlines, -, -⟩, htold⟩ := outline_faithful h
  exact ⟨h, h', by decide +kernel, hlines,
    fun hsame => hne ((htold _ _ _ h' hfinite hfinite').1 hsame)⟩

end Expr

end Sift

import Sift.Proofs.Acceptance
import Sift.Proofs.Notation

/-!
# Printed expressions read again

A printed expression is one group in which the members stand side by side with the glyph of
the connector between them. With fewer than two members no glyph is written, and the group
is read as an AND group. So a printed expression is read as the same tree exactly if no
group loses its connector in this way and every float in it is finite.

`Renderable` is the condition, and `glyphsBetween` are the connectors that are written in a
group.
-/

namespace Sift.Expr

mutual

/-- The expression does not change when it is printed and read. -/
def Renderable : Expr → Prop
  | .comparison c => ∀ x, c.value = .float x → x.isFinite
  | .group k members => (members.length < 2 → k = .and) ∧ RenderableAll members

def RenderableAll : List Expr → Prop
  | [] => True
  | e :: es => e.Renderable ∧ RenderableAll es

end

end Sift.Expr

namespace Sift.Grammar

open Sift.Text Sift.Expr

def glyphsBetween (k : Connector) (members : List Expr) : List Connector :=
  List.replicate (members.length - 1) k

theorem governs_glyphsBetween_iff (k : Connector) (members : List Expr) :
    Governs (glyphsBetween k members) k ↔ (members.length < 2 → k = .and) := by
  by_cases hfew : members.length < 2
  · have hnone : glyphsBetween k members = [] := by
      rw [glyphsBetween, show members.length - 1 = 0 by omega, List.replicate_zero]
    rw [hnone]
    constructor
    · intro hk _
      cases hk with
      | default => rfl
      | written hsome => exact absurd rfl hsome
    · intro hk
      rw [hk hfew]
      exact .default
  · have hsome : glyphsBetween k members ≠ [] := by
      rw [glyphsBetween, ne_eq, List.replicate_eq_nil_iff]
      omega
    refine iff_of_true (.written hsome fun c hc => ?_) fun h => absurd h hfew
    exact (List.mem_replicate.1 hc).2

theorem delimited_closing (rest : List Char) : Delimited (')' :: rest) :=
  ⟨')', rest, rfl, by decide⟩

theorem delimited_glyph (k : Connector) (rest : List Char) : Delimited (k.glyph :: rest) :=
  ⟨k.glyph, rest, rfl, by cases k <;> decide⟩

variable {strict : Bool}

mutual

theorem items_notated : (e : Expr) → (∀ c ∈ e.leaves, IsWritable c) → e.Renderable →
    ∀ {text after : List Char} {es : List Expr} {ks : List Connector},
      Delimited (text ++ after) → Items strict text after es ks →
        Items strict (e.notated ++ text) after (e :: es) ks
  | .comparison c, hwritable, hrender, text, after, es, ks, hafter, h => by
    have hc := isComparison_notated (hwritable c (by simp [leaves])) hrender hafter
    exact .comparison hc h
  | .group k members, hwritable, hrender, text, after, es, ks, hafter, h => by
    have hinner := items_notatedAll k members hwritable hrender.2 (text ++ after)
    have hk := (governs_glyphsBetween_iff k members).2 hrender.1
    simpa [notated] using Items.group hinner hk h

theorem items_notatedAll (k : Connector) : (es : List Expr) →
    (∀ c ∈ leavesAll es, IsWritable c) → RenderableAll es → ∀ rest : List Char,
      Items strict (notatedAll k es) (')' :: rest) es (glyphsBetween k es)
  | [], _, _, rest => .nil
  | [e], hwritable, hrender, rest => by
    obtain ⟨hleaves, -⟩ := forall_mem_leavesAll_cons.1 hwritable
    have hitems : Items strict (e.notated ++ []) (')' :: rest) [e] [] :=
      items_notated e hleaves hrender.1 (delimited_closing rest) .nil
    rw [List.append_nil] at hitems
    exact hitems
  | e :: d :: es, hwritable, hrender, rest => by
    obtain ⟨hleaves, hlater⟩ := forall_mem_leavesAll_cons.1 hwritable
    have hothers := items_notatedAll k (d :: es) hlater hrender.2 rest
    have hitems := items_notated e hleaves hrender.1
      (delimited_glyph k (notatedAll k (d :: es) ++ ')' :: rest)) (.connector k hothers)
    exact hitems

end

theorem glyph_ne (k : Connector) : k.glyph ≠ '(' ∧ k.glyph ≠ ')' := by
  cases k with
  | and => decide
  | or => decide

theorem glyph_inj {j k : Connector} (h : j.glyph = k.glyph) : j = k := by
  cases j with
  | and =>
    cases k with
    | and => rfl
    | or => exact absurd h (by decide)
  | or =>
    cases k with
    | and => exact absurd h (by decide)
    | or => rfl

variable {text after s : List Char} {es : List Expr} {ks : List Connector}

/-- A comparison begins with a character of its field. -/
theorem isFieldChar_of_isComparison {run : List Char} {k : Comparison} {x : Char}
    (hc : IsComparison run after k) (h : run ++ after = x :: s) : isFieldChar x = true := by
  obtain ⟨y, t, htext, hy⟩ := hc.startsComparison.exists_cons
  rw [h] at htext
  rwa [(List.cons.inj htext).1]

inductive StartsWithMark (strict : Bool) (after : List Char) :
    List Char → List Expr → List Connector → Prop
  | closing : StartsWithMark strict after [] [] []
  | connector (k : Connector) {text : List Char} {es : List Expr} {ks : List Connector}
      (h : Items strict text (')' :: after) es ks) :
      StartsWithMark strict after (k.glyph :: text) es (k :: ks)
  | group {inner text : List Char} {ds es : List Expr} {js ks : List Connector} {k : Connector}
      (hinner : Items strict inner (')' :: (text ++ ')' :: after)) ds js) (hk : Governs js k)
      (h : Items strict text (')' :: after) es ks) :
      StartsWithMark strict after ('(' :: inner ++ ')' :: text) (.group k ds :: es) ks

theorem Items.startsWithMark (h : Items strict text (')' :: after) es ks) {x : Char}
    (htext : text ++ ')' :: after = x :: s) (hx : x ∈ ['(', ')', '&', '|']) :
    StartsWithMark strict after text es ks := by
  have hmarks : ['(', ')', '&', '|'] ⊆ ['(', ')', '\'', '&', '|'] := by simp
  obtain ⟨hfield, -, -, hblank, -⟩ := mark_classes (hmarks hx)
  cases h with
  | nil => exact .closing
  | blank hc =>
    rw [(List.cons.inj htext).1, hblank] at hc
    cases hc
  | connector k h => exact .connector k h
  | group hinner hk h => exact .group hinner hk h
  | comparison hc =>
    have hfirst := isFieldChar_of_isComparison hc (by simpa using htext)
    rw [hfield] at hfirst
    cases hfirst
  | stray _ hc =>
    obtain ⟨-, y, t, hy, -, hother⟩ := hc
    rw [← (List.cons.inj hy).1, (List.cons.inj htext).1] at hother
    exact absurd hx hother

theorem Items.of_closing (h : Items strict text (')' :: after) es ks)
    (htext : text ++ ')' :: after = ')' :: s) : text = [] ∧ after = s ∧ es = [] ∧ ks = [] := by
  cases h.startsWithMark htext (by simp) with
  | closing => exact ⟨rfl, (List.cons.inj htext).2, rfl, rfl⟩
  | connector k => exact absurd (List.cons.inj htext).1 (glyph_ne k).2
  | group => exact absurd (List.cons.inj htext).1 (by decide)

theorem Items.of_glyph {k : Connector} (h : Items strict text (')' :: after) es ks)
    (htext : text ++ ')' :: after = k.glyph :: s) :
    ∃ text' ks', text = k.glyph :: text' ∧ ks = k :: ks' ∧ text' ++ ')' :: after = s ∧
      Items strict text' (')' :: after) es ks' := by
  cases h.startsWithMark htext (by cases k <;> simp [Connector.glyph]) with
  | closing => exact absurd (List.cons.inj htext).1.symm (glyph_ne k).2
  | connector j hrest =>
    obtain ⟨hj, hs⟩ := List.cons.inj htext
    obtain rfl := glyph_inj hj
    exact ⟨_, _, rfl, rfl, hs, hrest⟩
  | group => exact absurd (List.cons.inj htext).1.symm (glyph_ne k).1

theorem Items.of_opening {e : Expr} (h : Items strict text (')' :: after) (e :: es) ks)
    (htext : text ++ ')' :: after = '(' :: s) :
    ∃ inner text' ds js k, text = '(' :: inner ++ ')' :: text' ∧ e = .group k ds ∧
      Governs js k ∧ Items strict inner (')' :: (text' ++ ')' :: after)) ds js ∧
      Items strict text' (')' :: after) es ks := by
  cases h.startsWithMark htext (by simp) with
  | connector k => exact absurd (List.cons.inj htext).1 (glyph_ne k).1
  | group hinner hk hrest => exact ⟨_, _, _, _, _, rfl, rfl, hk, hinner, hrest⟩

theorem Items.of_startsComparison {e : Expr}
    (h : Items strict text (')' :: after) (e :: es) ks)
    (hstart : StartsComparison (text ++ ')' :: after)) :
    ∃ run text' c, text = run ++ text' ∧ e = .comparison c ∧
      IsComparison run (text' ++ ')' :: after) c ∧ Items strict text' (')' :: after) es ks := by
  obtain ⟨x, s, htext, hx⟩ := hstart.exists_cons
  obtain ⟨hblank, hparen⟩ := isFieldChar_classes hx
  cases h with
  | blank hc =>
    rw [(List.cons.inj htext).1, hblank] at hc
    cases hc
  | connector k =>
    have hmark : k.glyph ∈ ['(', ')', '\'', '&', '|'] := by cases k <;> simp [Connector.glyph]
    rw [← (List.cons.inj htext).1, (mark_classes hmark).1] at hx
    cases hx
  | group =>
    rw [← (List.cons.inj htext).1] at hparen
    exact absurd hparen (by decide)
  | comparison hc h => exact ⟨_, _, _, rfl, rfl, hc, h⟩
  | stray _ hc => exact absurd (by simpa using hstart) hc.1

mutual

/-- If the first member that is read from a printed expression is that expression, then
the whole of it has been read and it is renderable. -/
theorem exists_of_notated : (e : Expr) → (∀ c ∈ e.leaves, IsWritable c) →
    ∀ {text after tail : List Char} {es : List Expr} {ks : List Connector}, Delimited tail →
      Items strict text (')' :: after) (e :: es) ks → text ++ ')' :: after = e.notated ++ tail →
        e.Renderable ∧ ∃ text', text' ++ ')' :: after = tail ∧
          text = e.notated ++ text' ∧ Items strict text' (')' :: after) es ks
  | .comparison c, hwritable, text, after, tail, es, ks, htail, h, htext => by
    have hc := hwritable c (by simp [leaves])
    have hstart : StartsComparison (text ++ ')' :: after) := by
      rw [htext]
      exact startsComparison_notated hc tail
    obtain ⟨run, text', k, rfl, hk, hrun, hrest⟩ := h.of_startsComparison hstart
    obtain rfl := Expr.comparison.inj hk
    rw [List.append_assoc] at htext
    obtain ⟨rfl, hfinite⟩ := eq_notated_of_isComparison hc.value hrun htail htext
    exact ⟨hfinite, text', List.append_cancel_left htext, rfl, hrest⟩
  | .group k members, hwritable, text, after, tail, es, ks, htail, h, htext => by
    have hopen : text ++ ')' :: after = '(' :: (notatedAll k members ++ ')' :: tail) := by
      simpa [notated] using htext
    obtain ⟨inner, text', ds, js, j, rfl, hgroup, hj, hinner, hrest⟩ := h.of_opening hopen
    obtain ⟨rfl, rfl⟩ := Expr.group.inj hgroup
    have hinside : inner ++ ')' :: (text' ++ ')' :: after) =
        notatedAll k members ++ ')' :: tail := by simpa using hopen
    obtain ⟨hmembers, rfl, rfl, rfl⟩ := eq_of_notatedAll k members hwritable hinner hinside
    have hk := (governs_glyphsBetween_iff k members).1 hj
    exact ⟨⟨hk, hmembers⟩, text', rfl, by simp [notated], hrest⟩

theorem eq_of_notatedAll (k : Connector) : (members : List Expr) →
    (∀ c ∈ leavesAll members, IsWritable c) →
    ∀ {text after tail : List Char} {ks : List Connector},
      Items strict text (')' :: after) members ks →
      text ++ ')' :: after = notatedAll k members ++ ')' :: tail →
        RenderableAll members ∧ text = notatedAll k members ∧ after = tail ∧
          ks = glyphsBetween k members
  | [], _, text, after, tail, ks, h, htext => by
    obtain ⟨rfl, rfl, -, rfl⟩ := h.of_closing htext
    exact ⟨trivial, rfl, rfl, rfl⟩
  | [e], hwritable, text, after, tail, ks, h, htext => by
    obtain ⟨hleaves, -⟩ := forall_mem_leavesAll_cons.1 hwritable
    obtain ⟨hrender, text', htext', rfl, hrest⟩ :=
      exists_of_notated e hleaves (delimited_closing tail) h htext
    obtain ⟨rfl, rfl, -, rfl⟩ := hrest.of_closing htext'
    exact ⟨⟨hrender, trivial⟩, by simp [notatedAll], rfl, rfl⟩
  | e :: d :: es, hwritable, text, after, tail, ks, h, htext => by
    obtain ⟨hleaves, hothers⟩ := forall_mem_leavesAll_cons.1 hwritable
    have hfirst : text ++ ')' :: after =
        e.notated ++ k.glyph :: (notatedAll k (d :: es) ++ ')' :: tail) := by
      simpa [notatedAll] using htext
    obtain ⟨hrender, text', htext', rfl, hrest⟩ :=
      exists_of_notated e hleaves (delimited_glyph k _) h hfirst
    obtain ⟨text'', ks', rfl, rfl, htext'', hlater⟩ := hrest.of_glyph htext'
    obtain ⟨hrenders, rfl, rfl, rfl⟩ := eq_of_notatedAll k (d :: es) hothers hlater htext''
    exact ⟨⟨hrender, hrenders⟩, by simp [notatedAll], rfl, rfl⟩

end

theorem balanced_literal {l : Literal} (hdate : ∀ t, l ≠ .date t) :
    Balanced l.notated.toList := by
  by_cases hfinite : ∀ x, l = .float x → x.isFinite
  · have hvalue : IsValue l.notated.toList [')'] l :=
      isValue_notated hdate hfinite (delimited_closing [])
    exact .of_isValue hvalue
  · have hrun {s : List Char} (h : Run isFieldChar s) : Balanced s :=
      .of_run (fun _ hc => (Balanced.classes hc).1) h
    simp only [not_forall] at hfinite
    obtain ⟨x, rfl, hx⟩ := hfinite
    have hmem := notated_of_not_isFinite hx
    simp only [List.mem_cons, List.not_mem_nil, or_false] at hmem
    obtain htext | htext | htext := hmem
    · rw [htext]
      exact hrun (by simp only [run_cons, run_nil]; decide)
    · rw [htext]
      exact hrun (by simp only [run_cons, run_nil]; decide)
    · rw [htext]
      exact .plain (by decide) (hrun (by simp only [run_cons, run_nil]; decide))

theorem balanced_comparison {c : Comparison} (h : IsWritable c) : Balanced c.notated :=
  ((Balanced.of_run (fun _ hc => (Balanced.classes hc).1) h.field).append
    (.of_isOperator h.operator)).append (balanced_literal h.value)

mutual

theorem balanced_expr : (e : Expr) → (∀ c ∈ e.leaves, IsWritable c) → Balanced e.notated
  | .comparison c, hwritable => balanced_comparison (hwritable c (by simp [leaves]))
  | .group k members, hwritable => by
    have h := Balanced.group (balanced_exprs k members hwritable) .nil
    exact h

theorem balanced_exprs (k : Connector) : (es : List Expr) →
    (∀ c ∈ leavesAll es, IsWritable c) → Balanced (notatedAll k es)
  | [], _ => .nil
  | [e], hwritable => balanced_expr e (forall_mem_leavesAll_cons.1 hwritable).1
  | e :: d :: es, hwritable => by
    obtain ⟨hleaves, hlater⟩ := forall_mem_leavesAll_cons.1 hwritable
    have hfirst := balanced_expr e hleaves
    have hothers := balanced_exprs k (d :: es) hlater
    exact hfirst.append (.plain (by cases k <;> decide) hothers)

end

/-- Within the nesting limit a printed group is read as itself exactly if it is renderable. -/
theorem parse_text_group_iff {o : ParseOptions} {k : Connector} {members : List Expr}
    (hwritable : ∀ c ∈ leavesAll members, IsWritable c)
    (hdepth : (Expr.group k members).depth ≤ o.maxDepth) :
    Expr.parse o (Expr.group k members).text = .ok (.group k members) ↔
      (Expr.group k members).Renderable := by
  have htext : (Expr.group k members).text.toList = '(' :: (notatedAll k members ++ [')']) := by
    simp [Expr.text, notated]
  have hsingle : isSingleGroup ('(' :: (notatedAll k members ++ [')'])) = true := by
    have hend := isSingleGroup_balanced (balanced_exprs k members hwritable) []
    simpa using hend
  have htrim : trim (Expr.group k members).text.toList =
      '(' :: (notatedAll k members ++ [')']) := by rw [htext, trim_parentheses]
  rw [parse_of_isSingleGroup hsingle htrim, ofLexemes_eq_ok_iff]
  constructor
  · rintro ⟨text, gap, es, ks, j, hbody, -, hitems, hj, hgroup, -⟩
    obtain ⟨rfl, rfl⟩ := Expr.group.inj hgroup
    obtain ⟨hrender, -, -, rfl⟩ := eq_of_notatedAll k members hwritable hitems hbody.symm
    exact ⟨(governs_glyphsBetween_iff k members).1 hj, hrender⟩
  · rintro ⟨hk, hrender⟩
    exact ⟨notatedAll k members, [], members, _, k, rfl, run_nil _,
      items_notatedAll k members hwritable hrender [], (governs_glyphsBetween_iff k members).2 hk,
      rfl, hdepth⟩

theorem IsOperator.alone {op after : List Char} (h : IsOperator op after) : IsOperator op [] := by
  cases h with
  | unequal => exact .unequal
  | atLeast => exact .atLeast
  | atMost => exact .atMost
  | equal => exact .equal
  | greater => exact .greater trivial
  | less => exact .less trivial
  | symbol hc => exact .symbol hc trivial fun _ => trivial
  | symbols hc hd => exact .symbols hc hd

theorem IsValue.ne_date {value after : List Char} {l : Literal} (h : IsValue value after l) :
    ∀ t, l ≠ .date t := by
  intro t
  cases h with
  | whole negative =>
    unfold wholeLiteral
    split
    · exact Literal.noConfusion
    · exact Literal.noConfusion
  | fraction => exact Literal.noConfusion
  | quoted => exact Literal.noConfusion
  | keyword h =>
    obtain ⟨-, rfl⟩ | ⟨-, rfl⟩ | ⟨-, rfl⟩ := mem_keywords h
    all_goals exact Literal.noConfusion
  | word => exact Literal.noConfusion

theorem isWritable_of_isComparison {run after : List Char} {c : Comparison}
    (h : IsComparison run after c) : IsWritable c := by
  obtain ⟨hsome, hfield, -, hoperator, -, hvalue⟩ := h
  refine ⟨by simpa using hsome, by simpa using hfield, ?_, hvalue.ne_date⟩
  simpa using hoperator.alone

theorem isWritable_of_items {text after : List Char} {es : List Expr} {ks : List Connector}
    (h : Items strict text after es ks) : ∀ c ∈ leavesAll es, IsWritable c := by
  induction h with
  | nil => simp [leavesAll]
  | blank _ _ ih => exact ih
  | connector _ _ ih => exact ih
  | group _ _ _ ihinner ih =>
    rw [forall_mem_leavesAll_cons]
    exact ⟨ihinner, ih⟩
  | comparison hc _ ih =>
    rw [forall_mem_leavesAll_cons, leaves, List.forall_mem_singleton]
    exact ⟨isWritable_of_isComparison hc, ih⟩
  | stray _ _ _ ih => exact ih

/-- A tree that was parsed is a group of comparisons that can be written. -/
theorem exists_group_of_parse {o : ParseOptions} {s : String} {e : Expr}
    (h : Expr.parse o s = .ok e) : ∃ k members, e = .group k members ∧
      (∀ c ∈ leavesAll members, IsWritable c) ∧ e.depth ≤ o.maxDepth := by
  obtain ⟨inner, es, ks, k, -, hitems, -, rfl, hdepth⟩ := parse_eq_ok_iff_items.1 h
  exact ⟨k, es, rfl, isWritable_of_items hitems, hdepth⟩

/-- A parsed tree is printed and read as itself exactly if it is renderable. -/
theorem parse_text_eq_ok_iff {o : ParseOptions} {s : String} {e : Expr}
    (h : Expr.parse o s = .ok e) : Expr.parse o e.text = .ok e ↔ e.Renderable := by
  obtain ⟨k, members, rfl, hwritable, hdepth⟩ := exists_group_of_parse h
  exact parse_text_group_iff hwritable hdepth

/-- The connector of a group with one member is lost. -/
theorem parse_text_ne_ok_dangling :
    Expr.parse .default "a=1|" = .ok (.group .or [.comparison ⟨"a", "=", .int 1⟩]) ∧
      Expr.parse .default (Expr.group .or [.comparison ⟨"a", "=", .int 1⟩]).text ≠
        .ok (.group .or [.comparison ⟨"a", "=", .int 1⟩]) := by
  have h : Expr.parse .default "a=1|" = .ok (.group .or [.comparison ⟨"a", "=", .int 1⟩]) := by
    decide +kernel
  refine ⟨h, ?_⟩
  intro hagain
  have hrender := (parse_text_eq_ok_iff h).1 hagain
  exact absurd (hrender.1 (by decide)) (by decide)

end Sift.Grammar

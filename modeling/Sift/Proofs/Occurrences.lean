import Sift.Proofs.Acceptance
import Sift.Proofs.RoundTrip

/-!
# Where the comparisons of a tree stand

The comparisons of a tree are the ones among the lexemes of its text, in the same order, and
each of them has a place in that text. In this place its value can be exchanged for any other
text of a value that the same context ends.
-/

namespace Sift.Grammar

open Sift.Text Sift.Expr Lexeme

def comparison? (l : Lexeme) : Option Comparison :=
  match l.token with
  | .comparison k => some k
  | _ => none

def comparisons (ls : List Lexeme) : List Comparison := ls.filterMap comparison?

theorem comparisons_items {strict : Bool} {text after : List Char} {es : List Expr}
    {ks : List Connector} (h : Items strict text after es ks) (c : Cursor)
    (hc : c.rest = text ++ after) :
    comparisons (scan c) = leavesAll es ++ comparisons (scan (c.drop text.length)) := by
  induction h generalizing c with
  | nil => simp [leavesAll]
  | @blank x text after es ks hx _ ih =>
    rw [scan_blank hc hx, ih (c.drop 1) (by simp [hc]), drop_drop, List.length_cons, Nat.add_comm]
  | @connector k text after es ks _ ih =>
    rw [scan_connector k hc, List.length_cons, Nat.add_comm, ← drop_drop,
      ← ih (c.drop 1) (by simp [hc])]
    rfl
  | @group inner text after ds es js ks k _ _ _ ihinner ih =>
    have hrest : (c.drop 1).rest = inner ++ ')' :: (text ++ after) := by simp [hc]
    have hrest' := rest_drop_length hrest
    have hrest'' : (((c.drop 1).drop inner.length).drop 1).rest = text ++ after := by
      rw [Cursor.rest_drop, hrest', List.drop_one, List.tail_cons]
    have hlength : ('(' :: inner ++ ')' :: text).length = 1 + inner.length + 1 + text.length := by
      simp only [List.length_append, List.length_cons]
      omega
    have hopen : comparisons (scan c) = comparisons (scan (c.drop 1)) := by
      rw [scan_opening hc]
      rfl
    have hclose : comparisons (scan ((c.drop 1).drop inner.length)) =
        comparisons (scan (((c.drop 1).drop inner.length).drop 1)) := by
      rw [scan_closing hrest']
      rfl
    rw [hopen, ihinner (c.drop 1) hrest, hclose, ih _ hrest'', hlength, leavesAll, leaves,
      List.append_assoc]
    simp only [drop_drop]
  | @comparison run text after k es ks hk _ ih =>
    have hrest : c.rest = run ++ (text ++ after) := by simp [hc]
    obtain ⟨x, hscan⟩ := scan_comparison hk hrest
    rw [hscan, List.length_append, ← drop_drop, leavesAll, leaves, List.append_assoc,
      ← ih _ (rest_drop_length hrest)]
    rfl
  | @stray x text after es ks _ hx _ ih =>
    have hstray : StartsStray c.rest := by rw [hc]; exact hx
    rw [scan_stray hstray hc, List.length_cons, Nat.add_comm, ← drop_drop,
      ← ih (c.drop 1) (by simp [hc])]
    rfl

/-- The leaves of a tree are the comparisons that were scanned, in their order. -/
theorem leaves_eq_comparisons {o : ParseOptions} {s : String} {e : Expr}
    (h : Expr.parse o s = .ok e) : e.leaves = comparisons (lexemes s) := by
  obtain ⟨inner, es, ks, k, hnormal, hitems, -, rfl, -⟩ := parse_eq_ok_iff_items.1 h
  have hstart : (Cursor.start (normalizeChars s.toList)).rest = '(' :: (inner ++ [')']) := hnormal
  rw [lexemes]
  generalize Cursor.start (normalizeChars s.toList) = c at hstart
  have hrest : (c.drop 1).rest = inner ++ [')'] := by simp [hstart]
  have hrest' := rest_drop_length hrest
  have hend : (((c.drop 1).drop inner.length).drop 1).rest = [] := by
    rw [Cursor.rest_drop, hrest', List.drop_one, List.tail_cons]
  have hopen : comparisons (scan c) = comparisons (scan (c.drop 1)) := by
    rw [scan_opening hstart]
    rfl
  have hclose : comparisons (scan ((c.drop 1).drop inner.length)) = [] := by
    rw [scan_closing hrest', scan_nil hend]
    rfl
  rw [hopen, comparisons_items hitems _ hrest, hclose, List.append_nil, leaves]

/-- Every comparison that is scanned stands in the text where its lexeme says. -/
theorem exists_isComparison_of_mem_scan (c : Cursor) {l : Lexeme} {k : Comparison}
    (hl : l ∈ scan c) (hk : l.token = .comparison k) :
    ∃ before run after, c.rest = before ++ (run ++ after) ∧
      l.offset = c.offset + byteLength before ∧ IsComparison run after k := by
  obtain ⟨before, after, ls, hc, hoffset, hstops, hscan⟩ := exists_place_of_mem_scan c hl
  have hrest := rest_drop_length hc
  have hfront := front_scan (c.drop before.length)
  rw [hscan] at hfront
  generalize hls : l :: ls = lexemes at hfront
  cases hfront with
  | done => cases hls
  | blank hblank hx =>
    rw [hrest.symm.trans hblank, stops_cons, hx] at hstops
    cases hstops
  | @comparison x run after' j hrun hj =>
    obtain ⟨rfl, -⟩ := List.cons.inj hls
    obtain rfl := Token.comparison.inj hk
    exact ⟨before, run, after', by rw [hc, ← hrest, hrun], hoffset, hj⟩
  | _ =>
    obtain ⟨rfl, -⟩ := List.cons.inj hls
    cases hk

/-- A comparison stands in the normalized text: field and operator, then its value, and then
what comes after. -/
structure Occurrence (s : String) (k : Comparison) (head value after : List Char) : Prop where
  place : ∃ before x, normalizeChars s.toList = before ++ (head ++ value ++ after) ∧
    ⟨byteLength before, x, .comparison k⟩ ∈ lexemes s
  head : ∃ gap gap', head = k.field.toList ++ gap ++ k.operator.toList ++ gap' ∧
    IsHead k.field.toList gap k.operator.toList gap' (value ++ after)
  value : IsValue value after k.value

/-- The comparisons of a tree are those that stand in its text. -/
theorem mem_leaves_iff {o : ParseOptions} {s : String} {e : Expr} (h : Expr.parse o s = .ok e)
    (k : Comparison) : k ∈ e.leaves ↔ ∃ head value after, Occurrence s k head value after := by
  rw [leaves_eq_comparisons h, comparisons, List.mem_filterMap]
  constructor
  · rintro ⟨⟨offset, x, token⟩, hmem, htoken⟩
    obtain rfl : token = .comparison k := by
      cases token with
      | comparison j => exact congrArg Token.comparison (Option.some.inj htoken)
      | _ => cases htoken
    obtain ⟨before, run, after, hsplit, hoffset, hrun⟩ :=
      exists_isComparison_of_mem_scan _ hmem rfl
    obtain rfl : offset = byteLength before := by simpa [Cursor.start] using hoffset
    obtain @⟨field, gap, operator, gap', value, _, literal, hsome, hfield, hgap, hoperator, hgap',
      hvalue⟩ := hrun
    refine ⟨field ++ gap ++ operator ++ gap', value, after, ⟨before, x, hsplit, hmem⟩,
      ⟨gap, gap', by simp, ?_⟩, hvalue⟩
    simp only [String.toList_ofList]
    exact ⟨hsome, hfield, hgap, by simpa using hoperator, hgap', hvalue.stops_isBlank⟩
  · rintro ⟨head, value, after, ⟨before, x, -, hmem⟩, -, -⟩
    exact ⟨_, hmem, rfl⟩

theorem isWhiteSpace_of_isFieldChar {c : Char} (h : isFieldChar c = true) :
    isWhiteSpace c = false := by
  have h0 : ('0' : Char).val.toNat = 48 := rfl
  have h9 : ('9' : Char).val.toNat = 57 := rfl
  have hA : ('A' : Char).val.toNat = 65 := rfl
  have hZ : ('Z' : Char).val.toNat = 90 := rfl
  have ha : ('a' : Char).val.toNat = 97 := rfl
  have hz : ('z' : Char).val.toNat = 122 := rfl
  by_cases hmark : c = '_' ∨ c = '.'
  · rcases hmark with rfl | rfl <;> decide
  · obtain ⟨hline, hpoint⟩ := not_or.1 hmark
    simp only [isFieldChar, isLetter, isDigit, Bool.or_eq_true, Bool.and_eq_true,
      decide_eq_true_eq, Char.le_def, UInt32.le_iff_toNat_le, hline, hpoint, or_false, h0, h9, hA,
      hZ, ha, hz] at h
    have hvalue : c.toNat = c.val.toNat := rfl
    apply Bool.of_not_eq_true
    simp only [isWhiteSpace, Bool.or_eq_true, Bool.and_eq_true, decide_eq_true_eq]
    omega

section

variable {run : List Char} {k : Comparison}

theorem normalizeChars_comparison (h : IsComparison run [')'] k)
    (hend : Stops isWhiteSpace run.reverse) : normalizeChars run = '(' :: (run ++ [')']) := by
  obtain ⟨c, cs, htext, hc⟩ := h.startsComparison.exists_cons
  have hhead : ∀ x xs, run = x :: xs → x = c := by
    rintro x xs rfl
    exact (List.cons.inj htext).1
  have hfront : Stops isWhiteSpace run := by
    cases run with
    | nil => trivial
    | cons x xs =>
      obtain rfl := hhead x xs rfl
      exact isWhiteSpace_of_isFieldChar hc
  have htrim : trim run = run := trim_eq_self hfront hend
  have hsingle : isSingleGroup (trim run) = false := by
    rw [htrim]
    apply Bool.of_not_eq_true
    intro hgroup
    obtain ⟨body, hbody⟩ := exists_cons_of_isSingleGroup hgroup
    obtain rfl := hhead _ _ hbody
    exact absurd hc (by decide)
  rw [normalizeChars_of_not_isSingleGroup hsingle, htrim]

theorem parse_comparison (h : IsComparison run [')'] k) (hend : Stops isWhiteSpace run.reverse)
    {o : ParseOptions} (hdepth : 1 ≤ o.maxDepth) :
    Expr.parse o (String.ofList run) = .ok (.group .and [.comparison k]) := by
  have hitems : Items o.strict (run ++ []) [')'] [.comparison k] [] := .comparison h .nil
  rw [List.append_nil] at hitems
  rw [parse_eq_ok_iff_items]
  refine ⟨run, _, [], .and, ?_, hitems, .default, rfl, ?_⟩
  · rw [String.toList_ofList, normalizeChars_comparison h hend]
  · simpa [Expr.depth, depthAll] using hdepth

/-- A comparison without blanks stands behind the parenthesis that is put before it. -/
theorem occurrence_alone {field operator value : List Char} {literal : Literal}
    (hsome : field ≠ []) (hfield : Run isFieldChar field) (hoperator : IsOperator operator [])
    (hvalue : IsValue value [')'] literal) (hend : Stops isWhiteSpace value.reverse) :
    Occurrence (String.ofList (field ++ operator ++ value))
      ⟨String.ofList field, String.ofList operator, literal⟩ (field ++ operator) value [')'] := by
  obtain ⟨d, ds, hcons, hd⟩ := hvalue.startsValue
  have hoperator' : IsOperator operator (value ++ [')']) := by
    rw [hcons]
    exact isOperator_of_stops hoperator (stops_of_startsValue hd)
  have hcomparison : IsComparison (field ++ operator ++ value) [')']
      ⟨String.ofList field, String.ofList operator, literal⟩ := by
    have hrun := IsComparison.mk hsome hfield (run_nil _) hoperator' (run_nil _) hvalue
    simpa using hrun
  have hend' : Stops isWhiteSpace (field ++ operator ++ value).reverse := by
    rw [List.reverse_append]
    exact stops_append (by simp [hcons]) hend
  have hnormal := normalizeChars_comparison hcomparison hend'
  refine ⟨?_, ⟨[], [], by simp, ?_⟩, hvalue⟩
  · have hstart : (Cursor.start ('(' :: (field ++ operator ++ value ++ [')']))).rest =
        '(' :: (field ++ operator ++ value ++ [')']) := rfl
    have hrest : ((Cursor.start ('(' :: (field ++ operator ++ value ++ [')']))).drop 1).rest =
        field ++ operator ++ value ++ [')'] := rfl
    obtain ⟨x, hscan⟩ := scan_comparison hcomparison hrest
    refine ⟨['('], x, by rw [String.toList_ofList, hnormal]; simp, ?_⟩
    rw [lexemes, String.toList_ofList, hnormal, scan_opening hstart, hscan]
    exact List.mem_cons_of_mem _ List.mem_cons_self
  · simp only [String.toList_ofList]
    exact ⟨hsome, hfield, run_nil _, hoperator', run_nil _, hvalue.stops_isBlank⟩

end

namespace Occurrence

variable {s : String} {k : Comparison} {head value after : List Char}

/-- Another text of the same value can take the place of the value. -/
theorem replace (h : Occurrence s k head value after) {value' after' : List Char}
    (hvalue : IsValue value' after' k.value) : IsComparison (head ++ value') after' k := by
  obtain ⟨-, ⟨gap, gap', rfl, hhead⟩, -⟩ := h
  have hstops : Stops startsOperator (gap' ++ value' ++ after') := by
    cases gap' with
    | nil =>
      obtain ⟨c, cs, rfl, hc⟩ := hvalue.startsValue
      exact stops_of_startsValue hc
    | cons c gap' => exact (isBlank_classes ((run_cons _ _ _).1 hhead.gap').1).2.1
  have hoperator := isOperator_of_stops hhead.operator.alone hstops
  have hcomparison := IsComparison.mk hhead.some hhead.field hhead.gap hoperator hhead.gap' hvalue
  simpa using hcomparison

/-- The comparison alone, with another text of its value, is an expression of its own. -/
theorem parse_alone (h : Occurrence s k head value after) {value' : List Char}
    (hvalue : IsValue value' [')'] k.value) (hend : Stops isWhiteSpace value'.reverse)
    {o : ParseOptions} (hdepth : 1 ≤ o.maxDepth) :
    Expr.parse o (String.ofList (head ++ value')) = .ok (.group .and [.comparison k]) := by
  obtain ⟨d, ds, hcons, -⟩ := hvalue.startsValue
  have hsome : value'.reverse ≠ [] := by simp [hcons]
  have hend' : Stops isWhiteSpace (head ++ value').reverse := by
    rw [List.reverse_append]
    exact stops_append hsome hend
  exact parse_comparison (h.replace hvalue) hend' hdepth

end Occurrence

end Sift.Grammar

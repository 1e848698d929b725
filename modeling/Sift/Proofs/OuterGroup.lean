import Mathlib.Control.Monad.Basic
import Sift.Proofs.Acceptance

/-!
# Where the outer group ends

The normalization and the parser both look for the parenthesis that closes the outer group.
To the normalization every quote begins a string; the parser reads one only where a value
can stand, and a lenient reading skips the quotes elsewhere. So the two agree exactly if the
text that the parser has read in the group is balanced, which it is whenever no quote was
skipped. A text that is not balanced and is parsed all the same gets one more group around
it with a second normalization.
-/

namespace Sift.Grammar

open Sift.Text Sift.Expr Moment Lexeme

/-- No quote stands where it has no meaning. -/
def QuotesMeant (ls : List Lexeme) : Prop := ∀ l ∈ ls, l.token = .stray → l.head ≠ '\''

instance (ls : List Lexeme) : Decidable (QuotesMeant ls) :=
  inferInstanceAs (Decidable (∀ l ∈ ls, l.token = .stray → l.head ≠ '\''))

theorem QuotesMeant.tail {l : Lexeme} {ls : List Lexeme} (h : QuotesMeant (l :: ls)) :
    QuotesMeant ls := fun _ hmem => h _ (List.mem_cons_of_mem l hmem)

/-- Stray characters other than quotes do not unbalance a sequence of items. -/
theorem Balanced.of_quotesMeant {strict : Bool} {text after : List Char} {es : List Expr}
    {ks : List Connector} (h : Items strict text after es ks) {c : Cursor}
    (hc : c.rest = text ++ after) (hquotes : QuotesMeant (scan c)) :
    Balanced text ∧ QuotesMeant (scan (c.drop text.length)) := by
  induction h generalizing c with
  | nil => exact ⟨.nil, by simpa using hquotes⟩
  | @blank x text after es ks hx _ ih =>
    rw [scan_blank hc hx] at hquotes
    obtain ⟨hbalanced, hrest⟩ := ih (rest_drop_one hc) hquotes
    rw [List.length_cons, Nat.add_comm, ← drop_drop]
    exact ⟨.blank hx hbalanced, hrest⟩
  | @connector k text after es ks _ ih =>
    rw [scan_connector k hc] at hquotes
    obtain ⟨hbalanced, hrest⟩ := ih (rest_drop_one hc) hquotes.tail
    rw [List.length_cons, Nat.add_comm, ← drop_drop]
    exact ⟨.glyph k hbalanced, hrest⟩
  | @group inner text after ds es js ks k _ _ _ ihinner ih =>
    have hopen : c.rest = '(' :: (inner ++ ')' :: (text ++ after)) := by simp [hc]
    rw [scan_opening hopen] at hquotes
    have hinside := rest_drop_one hopen
    obtain ⟨hinner, hend⟩ := ihinner hinside hquotes.tail
    have hclose := rest_drop_length hinside
    rw [scan_closing hclose] at hend
    obtain ⟨hbalanced, hrest⟩ := ih (rest_drop_one hclose) hend.tail
    exact ⟨.group hinner hbalanced, by
      simpa [Nat.add_comm, Nat.add_left_comm, Nat.add_assoc] using hrest⟩
  | @comparison run text after k es ks hk _ ih =>
    have hc' : c.rest = run ++ (text ++ after) := by simp [hc]
    obtain ⟨x, hscan⟩ := scan_comparison hk hc'
    rw [hscan] at hquotes
    obtain ⟨hbalanced, hrest⟩ := ih (rest_drop_length hc') hquotes.tail
    rw [List.length_append, ← drop_drop]
    exact ⟨(of_isComparison hk).append hbalanced, hrest⟩
  | @stray x text after es ks _ hx _ ih =>
    have hstray : StartsStray c.rest := by rw [hc]; exact hx
    rw [scan_stray hstray hc] at hquotes
    have hquote : x ≠ '\'' := hquotes _ List.mem_cons_self rfl
    obtain ⟨hbalanced, hrest⟩ := ih (rest_drop_one hc) hquotes.tail
    obtain ⟨-, y, s, hsplit, -, hparen⟩ := hx
    obtain ⟨rfl, -⟩ := List.cons.inj hsplit
    simp only [List.mem_cons, List.not_mem_nil, or_false, not_or] at hparen
    rw [List.length_cons, Nat.add_comm, ← drop_drop]
    exact ⟨.plain (by simp [hparen, hquote]) hbalanced, hrest⟩

/-- What the outer group holds when it has been read, with the text behind it. -/
theorem exists_items_of_run_start {o : ParseOptions} {s : String} {r : Reading}
    (h : run o (start s) = .ok r) :
    ∃ text rest es ks, normalizeChars s.toList = '(' :: (text ++ ')' :: rest) ∧
      Items o.strict text (')' :: rest) es ks ∧ r.closing.offset = byteLength ('(' :: text) ∧
      (r.behind = [] ↔ Run isBlank rest) := by
  obtain ⟨inner, hinner⟩ := exists_normalizeChars_eq s.toList
  have hopen : (Cursor.start (normalizeChars s.toList)).rest = '(' :: (inner ++ [')']) := hinner
  rw [start, lexemes, scan_opening hopen, List.tail_cons, run_outer_eq_ok_iff] at h
  obtain ⟨text, rest, es, ks, k, hsplit, hitems, -, -, rfl⟩ := h
  have htext : inner ++ [')'] = text ++ ')' :: rest := (rest_drop_one hopen).symm.trans hsplit
  refine ⟨text, rest, es, ks, by rw [hinner, htext], hitems, ?_, ?_⟩
  · rw [offset_drop_length hsplit, offset_drop_one hopen]
    simp [Cursor.start]
  · rw [scan_eq_nil_iff, Cursor.rest_drop, rest_drop_length hsplit]
    rfl

theorem parse_eq_ok_tree_iff {o : ParseOptions} {s : String} {r : Reading}
    (h : run o (start s) = .ok r) : Expr.parse o s = .ok r.tree ↔ r.behind = [] := by
  rw [parse_eq_run, h, bind_finished_eq_ok_iff]
  constructor
  · rintro ⟨r', hr, hbehind, -⟩
    rwa [Except.ok.inj hr]
  · exact fun hbehind => ⟨r, rfl, hbehind, rfl⟩

/-- Strings are balanced, so only a quote that was skipped can unbalance a group. -/
theorem balanced_of_items {o : ParseOptions} {s : String} {text rest : List Char}
    {es : List Expr} {ks : List Connector}
    (hsplit : normalizeChars s.toList = '(' :: (text ++ ')' :: rest))
    (hitems : Items o.strict text (')' :: rest) es ks)
    (h : o.strict = true ∨ QuotesMeant (lexemes s)) : Balanced text := by
  rcases h with hstrict | hquotes
  · rw [hstrict] at hitems
    exact .of_items hitems
  · have hopen : (Cursor.start (normalizeChars s.toList)).rest = '(' :: (text ++ ')' :: rest) :=
      hsplit
    rw [lexemes, scan_opening hopen] at hquotes
    exact (Balanced.of_quotesMeant hitems (rest_drop_one hopen) hquotes.tail).1

theorem parse_normalize_of_balanced {s : String} (h : Balanced (trim s.toList))
    (o : ParseOptions) : Expr.parse o (Expr.normalize s) = Expr.parse o s := by
  have hfixed : normalizeChars (Expr.normalize s).toList = normalizeChars s.toList := by
    have hnormalize := congrArg String.toList ((normalize_normalize_iff s).2 h)
    simpa only [Expr.normalize, String.toList_ofList] using hnormalize
  rw [Expr.parse, Expr.parse, lexemes, lexemes, hfixed]

/-- Around a text that is not balanced the first normalization puts a group and the second
one more. -/
theorem parse_normalize_of_not_balanced {o : ParseOptions} {s : String} {e : Expr}
    (h : Expr.parse o s = .ok e) (hbalanced : ¬ Balanced (trim s.toList)) :
    Expr.parse ⟨o.strict, o.maxDepth + 1⟩ (Expr.normalize s) = .ok (.group .and [e]) := by
  obtain ⟨inner, es, ks, k, hinner, hitems, hk, rfl, hdepth⟩ := parse_eq_ok_iff_items.1 h
  have honce : normalizeChars s.toList = '(' :: (trim s.toList ++ [')']) :=
    normalizeChars_of_not_isSingleGroup (isSingleGroup_of_not_balanced hbalanced)
  obtain rfl : trim s.toList = inner :=
    List.append_cancel_right (List.cons.inj (honce.symm.trans hinner)).2
  have htwice : normalizeChars (Expr.normalize s).toList =
      '(' :: (('(' :: trim s.toList ++ ')' :: []) ++ [')']) := by
    have hwrapped : isSingleGroup ('(' :: (trim s.toList ++ [')'])) = false :=
      Bool.of_not_eq_true (mt (isSingleGroup_parentheses_iff _).1 hbalanced)
    rw [Expr.normalize, String.toList_ofList, honce, normalizeChars_of_not_isSingleGroup,
      trim_parentheses]
    · rfl
    · rwa [trim_parentheses]
  rw [parse_eq_ok_iff_items]
  refine ⟨_, [.group k es], [], .and, htwice, .group (items_closing _ hitems) hk .nil, .default,
    rfl, ?_⟩
  simp only [Expr.depth, depthAll] at hdepth ⊢
  omega

/-- A normalized text is parsed to the same tree exactly if the text is balanced. -/
theorem parse_normalize_iff {o : ParseOptions} {s : String} {e : Expr}
    (h : Expr.parse o s = .ok e) :
    Expr.parse o (Expr.normalize s) = .ok e ↔ Balanced (trim s.toList) := by
  constructor
  · intro hsame
    by_contra hbalanced
    have hdepth : e.depth ≤ o.maxDepth := (parse_eq_ok_iff_of_eq_ok hsame o.maxDepth).1 hsame
    have hdeeper : Expr.parse ⟨o.strict, o.maxDepth + 1⟩ (Expr.normalize s) = .ok e :=
      (parse_eq_ok_iff_of_eq_ok hsame _).2 (Nat.le_succ_of_le hdepth)
    rw [parse_normalize_of_not_balanced h hbalanced] at hdeeper
    have htrees := congrArg Expr.depth (Except.ok.inj hdeeper)
    simp [Expr.depth, depthAll] at htrees
  · intro hbalanced
    rw [parse_normalize_of_balanced hbalanced, h]

/-- The outer group of a text that is taken as it is closes with its last byte, and nothing
is found behind it, exactly if the text that was read in it is balanced. -/
theorem closing_iff_balanced {o : ParseOptions} {s : String} {r : Reading}
    (htrim : Expr.normalize s = trimString s) (h : run o (start s) = .ok r) :
    ∃ text rest, trim s.toList = '(' :: text ++ ')' :: rest ∧
      r.closing.offset = byteLength ('(' :: text) ∧
      (r.closing.offset + 1 = byteLength (trim s.toList) ↔ Balanced text) ∧
      (Expr.parse o s = .ok r.tree ↔ Balanced text) ∧
      (o.strict = true ∨ QuotesMeant (lexemes s) → Balanced text) := by
  have hnormal : normalizeChars s.toList = trim s.toList := String.ofList_inj.1 htrim
  have hsingle : isSingleGroup (trim s.toList) = true := (normalizeChars_eq_trim_iff _).1 hnormal
  obtain ⟨text, rest, es, ks, hsplit, hitems, hoffset, hbehind⟩ := exists_items_of_run_start h
  have hskipped := balanced_of_items hsplit hitems
  rw [hnormal] at hsplit
  have hlast : r.closing.offset + 1 = byteLength (trim s.toList) ↔ rest = [] := by
    have hlength : byteLength (trim s.toList) = byteLength ('(' :: text) + 1 + byteLength rest := by
      rw [hsplit, ← List.cons_append, byteLength_append, byteLength_cons ')', Nat.add_assoc]
      rfl
    rw [hoffset, hlength, ← byteLength_eq_zero_iff]
    omega
  have hblank : Run isBlank rest ↔ rest = [] := by
    obtain ⟨b, -, hb⟩ := (isSingleGroup_iff _).1 hsingle
    have htail : b ++ [')'] = text ++ ')' :: rest := (List.cons.inj (hb.symm.trans hsplit)).2
    exact ⟨fun hrun => (eq_of_append_closing htail hrun).2, by rintro rfl; exact run_nil _⟩
  rw [hsplit] at hsingle
  have hend : rest = [] ↔ Balanced text := eq_nil_iff_of_isSingleGroup hsingle
  exact ⟨text, rest, hsplit, hoffset, hlast.trans hend,
    (parse_eq_ok_tree_iff h).trans (hbehind.trans (hblank.trans hend)), hskipped⟩

theorem balanced_of_parse {o : ParseOptions} {s : String} {e : Expr}
    (h : Expr.parse o s = .ok e) (hskipped : o.strict = true ∨ QuotesMeant (lexemes s)) :
    Balanced (trim s.toList) := by
  obtain ⟨inner, es, ks, k, hinner, hitems, -⟩ := parse_eq_ok_iff_items.1 h
  have hbalanced : Balanced inner := balanced_of_items hinner hitems hskipped
  cases hsingle : isSingleGroup (trim s.toList) with
  | true =>
    rw [normalizeChars_of_isSingleGroup hsingle] at hinner
    rw [hinner]
    exact .group hbalanced .nil
  | false =>
    rw [normalizeChars_of_not_isSingleGroup hsingle] at hinner
    rwa [List.append_cancel_right (List.cons.inj hinner).2]

/-- The normalization and the parser agree on the end of the outer group exactly if the text
between is balanced, which it is in strict mode and if no quote was skipped. -/
theorem outerGroup_ends_iff_balanced (o : ParseOptions) (s : String) :
    (∀ r, Expr.normalize s = trimString s → run o (start s) = .ok r →
      ∃ text rest, trim s.toList = '(' :: text ++ ')' :: rest ∧
        r.closing.offset = byteLength ('(' :: text) ∧
        (r.closing.offset + 1 = byteLength (trim s.toList) ↔ Balanced text) ∧
        (Expr.parse o s = .ok r.tree ↔ Balanced text) ∧
        (o.strict = true ∨ QuotesMeant (lexemes s) → Balanced text)) ∧
      ∀ e, Expr.parse o s = .ok e →
        (Expr.normalize (Expr.normalize s) = Expr.normalize s ↔ Balanced (trim s.toList)) ∧
        (Expr.parse o (Expr.normalize s) = .ok e ↔ Balanced (trim s.toList)) ∧
        (o.strict = true ∨ QuotesMeant (lexemes s) → Balanced (trim s.toList)) :=
  ⟨fun _ htrim h => closing_iff_balanced htrim h,
    fun _ h => ⟨normalize_normalize_iff s, parse_normalize_iff h, balanced_of_parse h⟩⟩

/-- To the normalization a skipped quote hides a parenthesis that closes the group: the
parser ends it two bytes before the text does, or a second normalization wraps it again.
Neither happens to a quoted parenthesis in strict mode, nor in lenient mode behind stray
characters that are no quotes. -/
theorem outerGroup_ends_iff_balanced_quotedParenthesis :
    (run .default (start "(')')") =
        .ok ⟨.group .and [], ⟨2, ')', .closing⟩, [⟨3, '\'', .stray⟩, ⟨4, ')', .closing⟩]⟩ ∧
      byteLength (trim "(')')".toList) = 5 ∧
      ∃ text rest, trim "(')')".toList = '(' :: text ++ ')' :: rest ∧ ¬ Balanced text) ∧
    (Expr.parse .default "'" = .ok (.group .and []) ∧
      Expr.normalize (Expr.normalize "'") ≠ Expr.normalize "'" ∧
      Expr.parse .default (Expr.normalize "'") ≠ .ok (.group .and [])) ∧
    (Expr.parse ⟨true, 1⟩ " (a=')') " =
        .ok (.group .and [.comparison ⟨"a", "=", .string ")"⟩]) ∧
      Expr.normalize (Expr.normalize " (a=')') ") = Expr.normalize " (a=')') " ∧
      Expr.parse ⟨true, 1⟩ (Expr.normalize " (a=')') ") =
        .ok (.group .and [.comparison ⟨"a", "=", .string ")"⟩])) ∧
    (run .default (start "(é a=')')") =
        .ok ⟨.group .and [.comparison ⟨"a", "=", .string ")"⟩], ⟨9, ')', .closing⟩, []⟩ ∧
      byteLength (trim "(é a=')')".toList) = 10 ∧
      Expr.parse .default "(é a=')')" =
        .ok (.group .and [.comparison ⟨"a", "=", .string ")"⟩])) := by
  refine ⟨?_, ?_, ?_, ?_⟩
  · have hlexemes : lexemes "(')')" = [⟨0, '(', .opening⟩, ⟨1, '\'', .stray⟩,
        ⟨2, ')', .closing⟩, ⟨3, '\'', .stray⟩, ⟨4, ')', .closing⟩] := by
      decide +kernel
    have hrun : run .default (start "(')')") =
        .ok ⟨.group .and [], ⟨2, ')', .closing⟩, [⟨3, '\'', .stray⟩, ⟨4, ')', .closing⟩]⟩ := by
      rw [start, hlexemes]
      exact (run_of_next rfl).trans (run_of_closed rfl)
    obtain ⟨text, rest, hsplit, -, hlast, -⟩ :=
      (outerGroup_ends_iff_balanced .default "(')')").1 _ (by decide +kernel) hrun
    refine ⟨hrun, by decide +kernel, text, rest, hsplit, mt hlast.2 ?_⟩
    decide +kernel
  · have h : Expr.parse .default "'" = .ok (.group .and []) := by decide +kernel
    obtain ⟨hfixed, hsame, -⟩ := (outerGroup_ends_iff_balanced .default "'").2 _ h
    have hwrapped : Expr.normalize (Expr.normalize "'") ≠ Expr.normalize "'" := by decide +kernel
    exact ⟨h, hwrapped, mt (hfixed.2 ∘ hsame.1) hwrapped⟩
  · have h : Expr.parse ⟨true, 1⟩ " (a=')') " =
        .ok (.group .and [.comparison ⟨"a", "=", .string ")"⟩]) := by
      decide +kernel
    obtain ⟨hfixed, hsame, hbalanced⟩ := (outerGroup_ends_iff_balanced _ _).2 _ h
    exact ⟨h, hfixed.2 (hbalanced (.inl rfl)), hsame.2 (hbalanced (.inl rfl))⟩
  · have hlexemes : lexemes "(é a=')')" = [⟨0, '(', .opening⟩, ⟨1, 'é', .stray⟩,
        ⟨4, 'a', .comparison ⟨"a", "=", .string ")"⟩⟩, ⟨9, ')', .closing⟩] := by
      decide +kernel
    have hrun : run .default (start "(é a=')')") =
        .ok ⟨.group .and [.comparison ⟨"a", "=", .string ")"⟩], ⟨9, ')', .closing⟩, []⟩ := by
      rw [start, hlexemes]
      exact (run_of_next rfl).trans ((run_of_next rfl).trans (run_of_closed rfl))
    obtain ⟨text, rest, -, -, -, hparse, hbalanced⟩ :=
      (outerGroup_ends_iff_balanced .default "(é a=')')").1 _ (by decide +kernel) hrun
    have hquotes : QuotesMeant (lexemes "(é a=')')") := by
      rw [hlexemes]
      decide
    exact ⟨hrun, by decide +kernel, hparse.2 (hbalanced (.inr hquotes))⟩

end Sift.Grammar

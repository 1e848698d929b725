import Sift.Proofs.Lexing
import Sift.Query.Printer

/-!
# Quoted names are read back

SQL has a dotted name in parts, each a star or a text between double quotes, in which a quote
is written twice. A lexer of such names stops where an identifier was quoted up to, whatever
characters the identifier has, and finds its parts again.

`undouble` makes one quote of two in a row, and `takeName` is the lexer.
-/

namespace Sift

open Sift.Text Sift.Grammar

/-- A part of a dotted name, with the text between its quotes as it is written. -/
inductive NamePart where
  | star
  | quoted (raw : List Char)
deriving DecidableEq

def undouble : List Char → List Char
  | '"' :: '"' :: s => '"' :: undouble s
  | c :: s => c :: undouble s
  | [] => []

def NamePart.content : NamePart → List Char
  | .star => ['*']
  | .quoted raw => undouble raw

def takeQuoted : List Char → Option (List Char × List Char)
  | '"' :: '"' :: s => (takeQuoted s).map fun r => ('"' :: '"' :: r.1, r.2)
  | '"' :: s => some ([], s)
  | c :: s => (takeQuoted s).map fun r => (c :: r.1, r.2)
  | [] => none

def takePart : List Char → Option (NamePart × List Char)
  | '*' :: s => some (.star, s)
  | '"' :: s => (takeQuoted s).map fun r => (.quoted r.1, r.2)
  | _ => none

theorem length_lt_of_takeQuoted {s rest raw : List Char} (h : takeQuoted s = some (raw, rest)) :
    rest.length < s.length := by
  fun_induction takeQuoted s generalizing raw with
  | case1 s ih =>
    obtain ⟨r, hr, heq⟩ := Option.map_eq_some_iff.1 h
    obtain ⟨-, rfl⟩ := Prod.mk.inj heq
    have hshorter := ih hr
    simp only [List.length_cons]
    omega
  | case2 s =>
    obtain ⟨-, rfl⟩ := Prod.mk.inj (Option.some.inj h)
    exact Nat.lt_succ_self _
  | case3 c s _ _ ih =>
    obtain ⟨r, hr, heq⟩ := Option.map_eq_some_iff.1 h
    obtain ⟨-, rfl⟩ := Prod.mk.inj heq
    exact Nat.lt_succ_of_lt (ih hr)
  | case4 => cases h

theorem length_lt_of_takePart {s rest : List Char} {part : NamePart}
    (h : takePart s = some (part, rest)) : rest.length < s.length := by
  unfold takePart at h
  split at h
  · obtain ⟨-, rfl⟩ := Prod.mk.inj (Option.some.inj h)
    exact Nat.lt_succ_self _
  · obtain ⟨r, hr, heq⟩ := Option.map_eq_some_iff.1 h
    obtain ⟨-, rfl⟩ := Prod.mk.inj heq
    exact Nat.lt_succ_of_lt (length_lt_of_takeQuoted hr)
  · cases h

/-- The name in front of a text, part by part, and what comes after it. A point goes on with
another part. -/
def takeName (s : List Char) : Option (List NamePart × List Char) :=
  match _ : takePart s with
  | some (part, '.' :: rest) => (takeName rest).map fun r => (part :: r.1, r.2)
  | some (part, rest) => some ([part], rest)
  | none => none
termination_by s.length
decreasing_by
  have hshorter := length_lt_of_takePart ‹_›
  rw [List.length_cons] at hshorter
  omega

theorem takeName_last {s rest : List Char} {part : NamePart}
    (hpart : takePart s = some (part, rest)) (hrest : Stops (· = '.') rest) :
    takeName s = some ([part], rest) := by
  rw [takeName]
  split
  · next heq =>
    obtain ⟨rfl, rfl⟩ := Prod.mk.inj (Option.some.inj (hpart.symm.trans heq))
    exact absurd hrest (by simp)
  · next heq =>
    obtain ⟨rfl, rfl⟩ := Prod.mk.inj (Option.some.inj (hpart.symm.trans heq))
    rfl
  · next heq =>
    rw [hpart] at heq
    cases heq

theorem takeName_dotted {s rest : List Char} {part : NamePart}
    (hpart : takePart s = some (part, '.' :: rest)) :
    takeName s = (takeName rest).map fun r => (part :: r.1, r.2) := by
  rw [takeName]
  split
  · next heq =>
    obtain ⟨rfl, htail⟩ := Prod.mk.inj (Option.some.inj (hpart.symm.trans heq))
    obtain rfl := (List.cons.inj htail).2
    rfl
  · next hother heq =>
    obtain ⟨rfl, rfl⟩ := Prod.mk.inj (Option.some.inj (hpart.symm.trans heq))
    exact absurd rfl (hother _)
  · next heq =>
    rw [hpart] at heq
    cases heq

def doubled (s : List Char) : List Char :=
  s.flatMap fun c => if c = '"' then ['"', '"'] else [c]

theorem doubled_cons_quote (s : List Char) : doubled ('"' :: s) = '"' :: '"' :: doubled s := rfl

theorem doubled_cons {c : Char} (hc : c ≠ '"') (s : List Char) :
    doubled (c :: s) = c :: doubled s := by
  simp [doubled, hc]

theorem undouble_cons {c : Char} (hc : c ≠ '"') (s : List Char) :
    undouble (c :: s) = c :: undouble s := by
  rw [undouble]
  intro _ heq
  exact absurd heq hc

theorem takeQuoted_cons {c : Char} (hc : c ≠ '"') (s : List Char) :
    takeQuoted (c :: s) = (takeQuoted s).map fun r => (c :: r.1, r.2) := by
  rw [takeQuoted]
  · intro _ heq
    exact absurd heq hc
  · intro heq
    exact absurd heq hc

theorem undouble_doubled (s : List Char) : undouble (doubled s) = s := by
  induction s with
  | nil => rfl
  | cons c s ih =>
    by_cases hc : c = '"'
    · rw [hc, doubled_cons_quote, undouble, ih]
    · rw [doubled_cons hc, undouble_cons hc, ih]

/-- A quoted part ends at the quote that was written to close it. -/
theorem takeQuoted_doubled (s : List Char) {rest : List Char} (hrest : Stops (· = '"') rest) :
    takeQuoted (doubled s ++ '"' :: rest) = some (doubled s, rest) := by
  induction s with
  | nil =>
    change takeQuoted ('"' :: rest) = some ([], rest)
    rw [takeQuoted]
    rintro t rfl
    exact absurd hrest (by simp)
  | cons c s ih =>
    by_cases hc : c = '"'
    · rw [hc, doubled_cons_quote, List.cons_append, List.cons_append, takeQuoted, ih]
      rfl
    · rw [doubled_cons hc, List.cons_append, takeQuoted_cons hc, ih]
      rfl

def NamePart.ofSegment (s : List Char) : NamePart :=
  if s = ['*'] then .star else .quoted (doubled s)

theorem content_ofSegment (s : List Char) : (NamePart.ofSegment s).content = s := by
  unfold NamePart.ofSegment
  split
  · next hstar => exact hstar.symm
  · exact undouble_doubled s

theorem ofSegment_eq_star_iff (s : List Char) : NamePart.ofSegment s = .star ↔ s = ['*'] := by
  unfold NamePart.ofSegment
  split
  · next hstar => exact iff_of_true rfl hstar
  · next hother => exact iff_of_false NamePart.noConfusion hother

theorem takePart_quoteSegment (s : List Char) {rest : List Char} (hrest : Stops (· = '"') rest) :
    takePart (quoteSegment s ++ rest) = some (.ofSegment s, rest) := by
  unfold quoteSegment NamePart.ofSegment
  split
  · next hstar =>
    rw [hstar]
    rfl
  · change takePart ('"' :: (doubled s ++ ['"']) ++ rest) = _
    rw [List.cons_append, List.append_assoc, List.singleton_append, takePart,
      takeQuoted_doubled s hrest]
    rfl

theorem takeName_segments {segments : List (List Char)} (hsome : segments ≠ [])
    {rest : List Char} (hquote : Stops (· = '"') rest) (hpoint : Stops (· = '.') rest) :
    takeName (['.'].intercalate (segments.map quoteSegment) ++ rest) =
      some (segments.map .ofSegment, rest) := by
  induction segments with
  | nil => exact absurd rfl hsome
  | cons s others ih =>
    cases others with
    | nil =>
      rw [List.map_singleton, List.intercalate_singleton]
      exact takeName_last (takePart_quoteSegment s hquote) hpoint
    | cons t others =>
      have hrest := ih (List.cons_ne_nil _ _)
      rw [List.map_cons, List.map_cons, List.intercalate_cons_cons, List.append_assoc,
        List.append_assoc, List.singleton_append,
        takeName_dotted (takePart_quoteSegment s (by simp)), ← List.map_cons, hrest]
      rfl

/-- One more character in front begins a new piece or goes to the first one. -/
theorem exists_splitAt_cons (c d : Char) (s : List Char) :
    ∃ piece pieces, splitAt c s = piece :: pieces ∧
      splitAt c (d :: s) =
        if d = c then [] :: piece :: pieces else (d :: piece) :: pieces := by
  obtain ⟨piece, pieces, hpieces⟩ := List.exists_cons_of_ne_nil (splitWhere_ne_nil (· = c) s)
  refine ⟨piece, pieces, hpieces, ?_⟩
  rw [splitAt, splitWhere, hpieces]
  simp only [decide_eq_true_eq]

theorem intercalate_splitAt (c : Char) (s : List Char) : [c].intercalate (splitAt c s) = s := by
  induction s with
  | nil => rfl
  | cons d s ih =>
    obtain ⟨piece, pieces, hpieces, hcons⟩ := exists_splitAt_cons c d s
    rw [hpieces] at ih
    rw [hcons]
    split
    · next hd => rw [List.intercalate_cons_cons, List.nil_append, ih, List.singleton_append, hd]
    · cases pieces with
      | nil =>
        rw [List.intercalate_singleton] at ih ⊢
        rw [ih]
      | cons next pieces =>
        rw [List.intercalate_cons_cons] at ih ⊢
        rw [List.cons_append, List.cons_append, ih]

theorem length_splitAt (c : Char) (s : List Char) : (splitAt c s).length = s.count c + 1 := by
  induction s with
  | nil => rfl
  | cons d s ih =>
    obtain ⟨piece, pieces, hpieces, hcons⟩ := exists_splitAt_cons c d s
    rw [hpieces, List.length_cons] at ih
    rw [hcons]
    split
    · next hd => rw [hd, List.count_cons_self, List.length_cons, List.length_cons, ih]
    · next hd => rw [List.count_cons_of_ne hd, List.length_cons, ih]

theorem takeName_identifier (id : List Char) {rest : List Char}
    (hrest : Stops (fun c => c = '"' || c = '.') rest) :
    takeName (quoteIdentifier id ++ rest) = some ((splitAt '.' id).map .ofSegment, rest) := by
  have hends : Stops (· = '"') rest ∧ Stops (· = '.') rest := by
    cases rest with
    | nil => exact ⟨trivial, trivial⟩
    | cons c rest => simpa using hrest
  exact takeName_segments (splitWhere_ne_nil _ _) hends.1 hends.2

theorem contents_identifier (id : List Char) :
    ((splitAt '.' id).map NamePart.ofSegment).map NamePart.content = splitAt '.' id := by
  rw [List.map_map]
  exact (List.map_congr_left fun s _ => content_ofSegment s).trans (List.map_id _)

theorem quoteIdentifier_injective : Function.Injective quoteIdentifier := by
  intro id id' h
  have hparts := takeName_identifier id (stops_nil _)
  rw [h, takeName_identifier id' (stops_nil _)] at hparts
  have hsegments := congrArg (List.map NamePart.content) (Prod.mk.inj (Option.some.inj hparts)).1
  rw [contents_identifier, contents_identifier] at hsegments
  rw [← intercalate_splitAt '.' id, ← hsegments, intercalate_splitAt]

/-- A lexer reads a quoted identifier as one name that ends where the identifier was quoted up
to. It has a part for each segment between points, a star for a star alone, and the contents
of its parts are the segments. Two identifiers never share their quoted text. -/
theorem takeName_quoteIdentifier (id : List Char) {rest : List Char}
    (hrest : Stops (fun c => c = '"' || c = '.') rest) :
    (∃ parts, takeName (quoteIdentifier id ++ rest) = some (parts, rest) ∧
      parts.length = id.count '.' + 1 ∧
      (∀ i : Nat, parts[i]? = some .star ↔ (splitAt '.' id)[i]? = some ['*']) ∧
      parts.map NamePart.content = splitAt '.' id ∧
      ['.'].intercalate (parts.map NamePart.content) = id) ∧
    Function.Injective quoteIdentifier := by
  refine ⟨⟨_, takeName_identifier id hrest, ?_, fun i => ?_, contents_identifier id, ?_⟩,
    quoteIdentifier_injective⟩
  · rw [List.length_map, length_splitAt]
  · rw [List.getElem?_map, Option.map_eq_some_iff]
    constructor
    · rintro ⟨s, hs, hstar⟩
      rwa [(ofSegment_eq_star_iff s).1 hstar] at hs
    · intro hs
      exact ⟨['*'], hs, rfl⟩
  · rw [contents_identifier, intercalate_splitAt]

/-- Segments with a quote at either edge, a star alone, a star with more text and nothing. -/
theorem takeName_quoteIdentifier_edges :
    Stops (fun c => c = '"' || c = '.') " = ?".toList ∧
      quoteIdentifier "\"a.*.b*\".".toList = "\"\"\"a\".*.\"b*\"\"\".\"\"".toList ∧
      ∃ parts, takeName ("\"\"\"a\".*.\"b*\"\"\".\"\"".toList ++ " = ?".toList) =
          some (parts, " = ?".toList) ∧
        parts.map NamePart.content = ["\"a".toList, ['*'], "b*\"".toList, []] := by
  have hrest : Stops (fun c => c = '"' || c = '.') " = ?".toList :=
    (by decide : (' ' = '"' || ' ' = '.') = false)
  have hquoted : quoteIdentifier "\"a.*.b*\".".toList =
      "\"\"\"a\".*.\"b*\"\"\".\"\"".toList := by decide +kernel
  obtain ⟨⟨parts, hread, -, -, hcontents, -⟩, -⟩ :=
    takeName_quoteIdentifier "\"a.*.b*\".".toList hrest
  rw [hquoted] at hread
  exact ⟨hrest, hquoted, parts, hread, hcontents.trans (by decide +kernel)⟩

end Sift

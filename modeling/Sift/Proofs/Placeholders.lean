import Sift.Query.Printer

/-!
# Placeholders and bindings

The text of a query is written in pieces, each for the condition at one place, and each piece
brings the values that it binds. A double quote opens or closes a quoted part, since a quote
inside a quoted name is written twice, and the question marks outside of these parts are the
placeholders. Names contribute none, whatever characters they have, and every piece contributes
as many as it binds values, so the placeholders stand in the order of the bindings.

`pieces` cuts the text of a condition into its pieces, and `at?` finds a condition again by
its place. `written` has the place for each character of a query, and `bound` the one for each
of its bindings.
-/

namespace Sift

open Sift.Text

/-- The labels of the question marks outside double quotes, in a text that begins inside a
quoted part or outside of one. -/
def questionMarks {α : Type} : Bool → List (Char × α) → List α
  | _, [] => []
  | quoted, (c, a) :: s =>
    if c = '"' then questionMarks (!quoted) s
    else if c = '?' && !quoted then a :: questionMarks quoted s
    else questionMarks quoted s

def placeholders (s : List Char) : List Nat := questionMarks false s.zipIdx

def QuotesBalanced (s : List Char) : Prop := s.count '"' % 2 = 0

instance (s : List Char) : Decidable (QuotesBalanced s) :=
  inferInstanceAs (Decidable (s.count '"' % 2 = 0))

theorem questionMarks_map {α β : Type} (f : α → β) (quoted : Bool) (s : List (Char × α)) :
    questionMarks quoted (s.map fun p => (p.1, f p.2)) = (questionMarks quoted s).map f := by
  induction s generalizing quoted with
  | nil => rfl
  | cons p s ih =>
    obtain ⟨c, a⟩ := p
    simp only [List.map_cons, questionMarks, ih]
    split
    · rfl
    · split
      · rw [List.map_cons]
      · rfl

/-- A part with balanced quotes leaves the text behind it as it is. -/
theorem questionMarks_append {α : Type} (s t : List (Char × α)) (quoted : Bool) :
    questionMarks quoted (s ++ t) = questionMarks quoted s ++
      questionMarks (quoted ^^ decide ((s.map Prod.fst).count '"' % 2 = 1)) t := by
  induction s generalizing quoted with
  | nil => simp [questionMarks]
  | cons p s ih =>
    obtain ⟨c, a⟩ := p
    simp only [List.cons_append, questionMarks, List.map_cons, ih]
    by_cases hquote : c = '"'
    · have hparity : (!quoted ^^ decide ((s.map Prod.fst).count '"' % 2 = 1)) =
          (quoted ^^ decide (((s.map Prod.fst).count '"' + 1) % 2 = 1)) := by
        rcases Nat.mod_two_eq_zero_or_one ((s.map Prod.fst).count '"') with h | h
        · simp [h, Nat.add_mod]
        · simp [h, Nat.add_mod]
      simp only [hquote, if_true, List.count_cons_self, hparity]
    · have hcount : (c :: s.map Prod.fst).count '"' = (s.map Prod.fst).count '"' :=
        List.count_cons_of_ne hquote
      simp only [hquote, if_false, hcount]
      split
      · rfl
      · rfl

theorem questionMarks_append_of_balanced {α : Type} {s : List (Char × α)}
    (h : QuotesBalanced (s.map Prod.fst)) (t : List (Char × α)) :
    questionMarks false (s ++ t) = questionMarks false s ++ questionMarks false t := by
  have hparity : ¬(s.map Prod.fst).count '"' % 2 = 1 := by
    rw [QuotesBalanced] at h
    omega
  simp [questionMarks_append, hparity]

theorem questionMarks_const {α : Type} (a : α) (s : List Char) :
    questionMarks false (s.map fun c => (c, a)) =
      List.replicate (placeholders s).length a := by
  have hzip : s.map (fun c => (c, a)) = s.zipIdx.map fun p => (p.1, a) := by
    conv => lhs; rw [← List.zipIdx_map_fst 0 s]
    rw [List.map_map]
    rfl
  rw [hzip, questionMarks_map (fun _ => a), List.map_const', placeholders]

theorem questionMarks_unit_eq_nil_iff {s : List Char} :
    questionMarks false (s.map (·, ())) = [] ↔ placeholders s = [] := by
  rw [questionMarks_const, List.replicate_eq_nil_iff, List.length_eq_zero_iff]

/-- The labels of a text at its placeholders. -/
theorem placeholders_map_getElem? {α : Type} (s : List (Char × α)) :
    (placeholders (s.map Prod.fst)).map (fun i => (s.map Prod.snd)[i]?) =
      (questionMarks false s).map some := by
  rw [placeholders, ← questionMarks_map, ← questionMarks_map]
  congr 1
  apply List.ext_getElem
  · simp
  · intro i hi _
    simp only [List.length_map, List.length_zipIdx] at hi
    simp [hi]

theorem mem_of_mem_questionMarks {α : Type} {quoted : Bool} {s : List (Char × α)} {a : α}
    (h : a ∈ questionMarks quoted s) : ('?', a) ∈ s := by
  induction s generalizing quoted with
  | nil => cases h
  | cons p s ih =>
    obtain ⟨c, b⟩ := p
    unfold questionMarks at h
    split at h
    · exact List.mem_cons_of_mem _ (ih h)
    · split at h
      · next hmark =>
        obtain ⟨rfl, -⟩ : c = '?' ∧ _ := by simpa using hmark
        rcases List.mem_cons.1 h with rfl | h
        · exact List.mem_cons_self
        · exact List.mem_cons_of_mem _ (ih h)
      · exact List.mem_cons_of_mem _ (ih h)

theorem getElem?_of_mem_placeholders {s : List Char} {i : Nat} (h : i ∈ placeholders s) :
    s[i]? = some '?' :=
  List.mem_zipIdx_iff_getElem?.1 (mem_of_mem_questionMarks h)

structure Mute (s : List Char) : Prop where
  balanced : QuotesBalanced s
  none : placeholders s = []

theorem placeholders_append {s : List Char} (h : QuotesBalanced s) (t : List Char) :
    (placeholders (s ++ t)).length = (placeholders s).length + (placeholders t).length := by
  have hmarks (u : List Char) : (placeholders u).length =
      (questionMarks false (u.map fun c => (c, ()))).length := by
    rw [questionMarks_const, List.length_replicate]
  have hs : QuotesBalanced ((s.map fun c => (c, ())).map Prod.fst) := by
    simpa [Function.comp_def] using h
  rw [hmarks, hmarks s, hmarks t, List.map_append, questionMarks_append_of_balanced hs,
    List.length_append]

theorem QuotesBalanced.append {s t : List Char} (hs : QuotesBalanced s) (ht : QuotesBalanced t) :
    QuotesBalanced (s ++ t) := by
  unfold QuotesBalanced at *
  rw [List.count_append]
  omega

def Bare (s : List Char) : Prop := '?' ∉ s ∧ '"' ∉ s

instance (s : List Char) : Decidable (Bare s) := inferInstanceAs (Decidable (_ ∧ _))

theorem questionMarks_of_not_mem {α : Type} (quoted : Bool) {s : List (Char × α)}
    (h : '?' ∉ s.map Prod.fst) : questionMarks quoted s = [] := by
  induction s generalizing quoted with
  | nil => rfl
  | cons p s ih =>
    obtain ⟨c, a⟩ := p
    simp only [List.map_cons, List.mem_cons, not_or] at h
    simp [questionMarks, ih _ h.2, Ne.symm h.1]

namespace Mute

theorem nil : Mute [] := ⟨rfl, rfl⟩

theorem append {s t : List Char} (hs : Mute s) (ht : Mute t) : Mute (s ++ t) := by
  refine ⟨hs.balanced.append ht.balanced, ?_⟩
  rw [← List.length_eq_zero_iff, placeholders_append hs.balanced, hs.none, ht.none]
  rfl

theorem of_bare {s : List Char} (h : Bare s) : Mute s := by
  refine ⟨?_, questionMarks_of_not_mem false (by simpa using h.1)⟩
  rw [QuotesBalanced, List.count_eq_zero.2 h.2]

theorem flatMap {α : Type} {parts : List α} {f : α → List Char} (h : ∀ a ∈ parts, Mute (f a)) :
    Mute (parts.flatMap f) := by
  induction parts with
  | nil => exact nil
  | cons a parts ih =>
    obtain ⟨ha, hparts⟩ := List.forall_mem_cons.1 h
    exact ha.append (ih hparts)

theorem intercalate {separator : List Char} (hseparator : Mute separator)
    {parts : List (List Char)} (h : ∀ s ∈ parts, Mute s) : Mute (separator.intercalate parts) := by
  induction parts with
  | nil => exact nil
  | cons s parts ih =>
    obtain ⟨hs, hparts⟩ := List.forall_mem_cons.1 h
    cases parts with
    | nil => simpa using hs
    | cons t parts =>
      rw [List.intercalate_cons_cons]
      exact (hs.append hseparator).append (ih hparts)

/-- A quote inside a quoted part is written twice, so the part goes on behind it. -/
theorem questionMarks_escaped (s : List Char) (t : List (Char × Unit)) :
    questionMarks true ((s.flatMap fun c => if c = '"' then ['"', '"'] else [c]).map (·, ()) ++ t) =
      questionMarks true t := by
  induction s with
  | nil => rfl
  | cons c s ih =>
    by_cases hc : c = '"'
    · simpa [hc, questionMarks] using ih
    · simpa [hc, questionMarks] using ih

theorem quoted (s : List Char) :
    Mute ('"' :: s.flatMap (fun c => if c = '"' then ['"', '"'] else [c]) ++ ['"']) := by
  constructor
  · have hescaped : QuotesBalanced (s.flatMap fun c => if c = '"' then ['"', '"'] else [c]) := by
      induction s with
      | nil => rfl
      | cons c s ih =>
        refine QuotesBalanced.append ?_ ih
        by_cases hc : c = '"'
        · simp [hc, QuotesBalanced]
        · simp [hc, QuotesBalanced]
    unfold QuotesBalanced at *
    rw [List.count_append, List.count_cons_self, List.count_singleton_self]
    omega
  · rw [← questionMarks_unit_eq_nil_iff, List.map_append, List.map_cons, List.cons_append,
      questionMarks, if_pos rfl, Bool.not_false, questionMarks_escaped]
    rfl

theorem quoteSegment (s : List Char) : Mute (quoteSegment s) := by
  unfold Sift.quoteSegment
  split
  · next hstar =>
    rw [hstar]
    exact of_bare (by decide)
  · exact quoted s

theorem quoteIdentifier (s : List Char) : Mute (quoteIdentifier s) := by
  apply intercalate (of_bare (by decide))
  intro part hpart
  obtain ⟨segment, -, rfl⟩ := List.mem_map.1 hpart
  exact quoteSegment segment

theorem join {j : Join} (h : Bare j.operator.toList) : Mute j.sql := by
  have hname : Bare j.kind.name.toList := by cases j.kind <;> decide
  apply intercalate (of_bare (by decide))
  simp only [List.forall_mem_cons, List.not_mem_nil, false_implies, implies_true, and_true]
  exact ⟨of_bare hname, of_bare (by decide), quoteIdentifier _, of_bare (by decide),
    quoteIdentifier _, of_bare h, quoteIdentifier _⟩

end Mute

/-- A part of the text of a query, the place of the condition that it is written for and the
values that it binds. A place is the way to a condition from the outside: its number in the
list of conditions, then its number in the group there, and so on. -/
structure Piece where
  place : List Nat
  text : List Char
  values : List Literal

namespace Condition

mutual

def pieces (place : List Nat) : Condition → List Piece
  | .nested conditions =>
    ⟨place, ['('], []⟩ :: piecesAll place conditions ++ [⟨place, [')'], []⟩]
  | c => [⟨place, c.sql, c.bindings⟩]

def piecesAll (place : List Nat) : List (Connector × Condition) → List Piece
  | [] => []
  | (_, c) :: cs => pieces (place ++ [0]) c ++ piecesRest place 1 cs

def piecesRest (place : List Nat) (n : Nat) : List (Connector × Condition) → List Piece
  | [] => []
  | (connector, c) :: cs =>
    ⟨place, ' ' :: connector.name.toList ++ [' '], []⟩ ::
      pieces (place ++ [n]) c ++ piecesRest place (n + 1) cs

end

def at? : Condition → List Nat → Option Condition
  | c, [] => some c
  | .nested conditions, n :: way =>
    match conditions[n]? with
    | some (_, c) => at? c way
    | none => none
  | _, _ :: _ => none

mutual

/-- Operators are bare, and a fragment of SQL has balanced quotes and a placeholder for each
of its values. -/
def WellBound : Condition → Prop
  | .compare _ operator _ => Bare operator.toList
  | .isNull _ _ => True
  | .raw text values =>
    QuotesBalanced text.toList ∧ (placeholders text.toList).length = values.length
  | .nested conditions => WellBoundAll conditions

def WellBoundAll : List (Connector × Condition) → Prop
  | [] => True
  | (_, c) :: cs => WellBound c ∧ WellBoundAll cs

end

mutual

theorem pieces_text (place : List Nat) : (c : Condition) →
    (c.pieces place).flatMap (·.text) = c.sql
  | .compare _ _ _ => by simp [pieces]
  | .isNull _ _ => by simp [pieces]
  | .raw _ _ => by simp [pieces]
  | .nested conditions => by simp [pieces, sql, piecesAll_text place conditions]

theorem piecesAll_text (place : List Nat) : (cs : List (Connector × Condition)) →
    (piecesAll place cs).flatMap (·.text) = sqlAll cs
  | [] => rfl
  | (_, c) :: cs => by
    rw [piecesAll, List.flatMap_append, pieces_text _ c, piecesRest_text _ _ cs, sqlAll]

theorem piecesRest_text (place : List Nat) (n : Nat) : (cs : List (Connector × Condition)) →
    (piecesRest place n cs).flatMap (·.text) = sqlRest cs
  | [] => rfl
  | (_, c) :: cs => by
    simp [piecesRest, sqlRest, pieces_text _ c, piecesRest_text _ _ cs]

end

mutual

theorem pieces_values (place : List Nat) : (c : Condition) →
    (c.pieces place).flatMap (·.values) = c.bindings
  | .compare _ _ _ => by simp [pieces]
  | .isNull _ _ => by simp [pieces]
  | .raw _ _ => by simp [pieces]
  | .nested conditions => by simp [pieces, bindings, piecesAll_values place conditions]

theorem piecesAll_values (place : List Nat) : (cs : List (Connector × Condition)) →
    (piecesAll place cs).flatMap (·.values) = bindingsAll cs
  | [] => rfl
  | (_, c) :: cs => by
    rw [piecesAll, List.flatMap_append, pieces_values _ c, piecesRest_values _ _ cs, bindingsAll]

theorem piecesRest_values (place : List Nat) (n : Nat) : (cs : List (Connector × Condition)) →
    (piecesRest place n cs).flatMap (·.values) = bindingsAll cs
  | [] => rfl
  | (_, c) :: cs => by
    simp [piecesRest, bindingsAll, pieces_values _ c, piecesRest_values _ _ cs]

end

structure Writes (c : Condition) (p : Piece) : Prop where
  single : ∀ conditions, c ≠ .nested conditions
  text : p.text = c.sql
  values : p.values = c.bindings

mutual

/-- A piece that binds values is written for the condition at its place. -/
theorem exists_at?_of_mem_pieces (place : List Nat) : (c : Condition) → ∀ p ∈ c.pieces place,
    p.values ≠ [] → ∃ way d, p.place = place ++ way ∧ c.at? way = some d ∧ d.Writes p
  | .compare column operator value, p, hp, _ => by
    obtain rfl := List.mem_singleton.1 hp
    exact ⟨[], _, (List.append_nil _).symm, rfl, fun _ => Condition.noConfusion, rfl, rfl⟩
  | .isNull column negated, p, hp, _ => by
    obtain rfl := List.mem_singleton.1 hp
    exact ⟨[], _, (List.append_nil _).symm, rfl, fun _ => Condition.noConfusion, rfl, rfl⟩
  | .raw text values, p, hp, _ => by
    obtain rfl := List.mem_singleton.1 hp
    exact ⟨[], _, (List.append_nil _).symm, rfl, fun _ => Condition.noConfusion, rfl, rfl⟩
  | .nested conditions, p, hp, hsome => by
    rw [pieces, List.cons_append, List.mem_cons, List.mem_append, List.mem_singleton] at hp
    obtain rfl | hp | rfl := hp
    · exact absurd rfl hsome
    · obtain ⟨n, k, c, way, d, hc, hplace, hd, hwrites⟩ :=
        exists_at?_of_mem_piecesAll place conditions p hp hsome
      exact ⟨n :: way, d, hplace, by rw [at?, hc]; exact hd, hwrites⟩
    · exact absurd rfl hsome

theorem exists_at?_of_mem_piecesAll (place : List Nat) : (cs : List (Connector × Condition)) →
    ∀ p ∈ piecesAll place cs, p.values ≠ [] → ∃ n k c way d, cs[n]? = some (k, c) ∧
      p.place = place ++ n :: way ∧ c.at? way = some d ∧ d.Writes p
  | [], p, hp, _ => absurd hp List.not_mem_nil
  | (k, c) :: cs, p, hp, hsome => by
    rcases List.mem_append.1 hp with hp | hp
    · obtain ⟨way, d, hplace, hd, hwrites⟩ := exists_at?_of_mem_pieces _ c p hp hsome
      exact ⟨0, k, c, way, d, rfl, by simpa using hplace, hd, hwrites⟩
    · obtain ⟨n, k', c', way, d, hc, hplace, hd, hwrites⟩ :=
        exists_at?_of_mem_piecesRest place 1 cs p hp hsome
      exact ⟨n + 1, k', c', way, d, hc, by rw [hplace, Nat.add_comm], hd, hwrites⟩

theorem exists_at?_of_mem_piecesRest (place : List Nat) (n : Nat) :
    (cs : List (Connector × Condition)) → ∀ p ∈ piecesRest place n cs, p.values ≠ [] →
      ∃ m k c way d, cs[m]? = some (k, c) ∧ p.place = place ++ (n + m) :: way ∧
        c.at? way = some d ∧ d.Writes p
  | [], p, hp, _ => absurd hp List.not_mem_nil
  | (k, c) :: cs, p, hp, hsome => by
    rw [piecesRest, List.cons_append, List.mem_cons, List.mem_append] at hp
    obtain rfl | hp | hp := hp
    · exact absurd rfl hsome
    · obtain ⟨way, d, hplace, hd, hwrites⟩ := exists_at?_of_mem_pieces _ c p hp hsome
      exact ⟨0, k, c, way, d, rfl, by simpa using hplace, hd, hwrites⟩
    · obtain ⟨m, k', c', way, d, hc, hplace, hd, hwrites⟩ :=
        exists_at?_of_mem_piecesRest place (n + 1) cs p hp hsome
      exact ⟨m + 1, k', c', way, d, hc, by rw [hplace, Nat.add_right_comm, Nat.add_assoc], hd,
        hwrites⟩

end

end Condition

structure Piece.Balanced (p : Piece) : Prop where
  quotes : QuotesBalanced p.text
  placeholders : (placeholders p.text).length = p.values.length

theorem Mute.piece {s : List Char} (h : Mute s) (place : List Nat) :
    Piece.Balanced ⟨place, s, []⟩ := ⟨h.balanced, by rw [h.none]; rfl⟩

namespace Condition

mutual

theorem balanced_pieces (place : List Nat) : (c : Condition) → c.WellBound →
    ∀ p ∈ c.pieces place, p.Balanced
  | .compare column operator value, h, p, hp => by
    obtain rfl := List.mem_singleton.1 hp
    have hname : Mute (quoteIdentifier column.toList ++ ' ' :: operator.toList ++ [' ']) :=
      ((Mute.quoteIdentifier _).append (.append (s := [' ']) (.of_bare (by decide))
        (.of_bare h))).append (.of_bare (by decide))
    have htext : (Condition.compare column operator value).sql =
        quoteIdentifier column.toList ++ ' ' :: operator.toList ++ [' '] ++ ['?'] := by
      simp [sql]
    refine ⟨?_, ?_⟩
    · rw [htext]
      exact hname.balanced.append rfl
    · rw [htext, placeholders_append hname.balanced, hname.none]
      rfl
  | .isNull column negated, _, p, hp => by
    obtain rfl := List.mem_singleton.1 hp
    have hword : Bare (if negated then " is not null" else " is null").toList := by
      cases negated <;> decide
    exact ((Mute.quoteIdentifier _).append (.of_bare hword)).piece place
  | .raw text values, h, p, hp => by
    obtain rfl := List.mem_singleton.1 hp
    exact ⟨h.1, h.2⟩
  | .nested conditions, h, p, hp => by
    rw [pieces, List.cons_append, List.mem_cons, List.mem_append, List.mem_singleton] at hp
    obtain rfl | hp | rfl := hp
    · exact (Mute.of_bare (by decide)).piece place
    · exact balanced_piecesAll place conditions h p hp
    · exact (Mute.of_bare (by decide)).piece place

theorem balanced_piecesAll (place : List Nat) : (cs : List (Connector × Condition)) →
    WellBoundAll cs → ∀ p ∈ piecesAll place cs, p.Balanced
  | [], _, p, hp => absurd hp List.not_mem_nil
  | (_, c) :: cs, h, p, hp => by
    rcases List.mem_append.1 hp with hp | hp
    · exact balanced_pieces _ c h.1 p hp
    · exact balanced_piecesRest place 1 cs h.2 p hp

theorem balanced_piecesRest (place : List Nat) (n : Nat) : (cs : List (Connector × Condition)) →
    WellBoundAll cs → ∀ p ∈ piecesRest place n cs, p.Balanced
  | [], _, p, hp => absurd hp List.not_mem_nil
  | (k, c) :: cs, h, p, hp => by
    have hglyph : Bare (' ' :: k.name.toList ++ [' ']) := by cases k <;> decide
    rw [piecesRest, List.cons_append, List.mem_cons, List.mem_append] at hp
    obtain rfl | hp | hp := hp
    · exact (Mute.of_bare hglyph).piece place
    · exact balanced_pieces _ c h.1 p hp
    · exact balanced_piecesRest place (n + 1) cs h.2 p hp

end

end Condition

namespace Query

def opening (q : Query) : List Char :=
  "select * from ".toList ++ quoteIdentifier q.table.toList ++
    q.joins.flatMap (fun j => ' ' :: j.sql) ++
      if q.wheres.isEmpty then [] else " where ".toList

def pieces (q : Query) : List Piece :=
  ⟨[], q.opening, []⟩ :: Condition.piecesAll [] q.wheres.conditions

/-- The text with the place of the condition that each character is written for. -/
def written (q : Query) : List (Char × List Nat) :=
  q.pieces.flatMap fun p => p.text.map (·, p.place)

/-- The bindings with the place of the condition that each of them comes from. -/
def bound (q : Query) : List (Literal × List Nat) :=
  q.pieces.flatMap fun p => p.values.map (·, p.place)

def conditionAt? (q : Query) (place : List Nat) : Option Condition :=
  (Condition.nested q.wheres.conditions).at? place

theorem written_fst (q : Query) : q.written.map Prod.fst = q.sql.toList := by
  have htext : q.written.map Prod.fst = q.pieces.flatMap (·.text) := by
    simp [written, List.map_flatMap, Function.comp_def]
  rw [htext, pieces, List.flatMap_cons, Condition.piecesAll_text, Query.sql, String.toList_ofList]
  unfold Query.sqlChars opening
  -- the keyword stays closed, or rewriting runs through its characters
  generalize " where ".toList = keyword
  split
  · next hempty =>
    rw [WhereGroup.isEmpty, List.isEmpty_iff] at hempty
    rw [hempty, Condition.sqlAll, List.append_nil]
  · simp only [List.append_assoc]

theorem bound_fst (q : Query) : q.bound.map Prod.fst = q.bindings := by
  have hvalues : q.bound.map Prod.fst = q.pieces.flatMap (·.values) := by
    simp [bound, List.map_flatMap, Function.comp_def]
  rw [hvalues, pieces, List.flatMap_cons, Condition.piecesAll_values]
  rfl

theorem balanced_pieces {q : Query} (hjoins : ∀ j ∈ q.joins, Bare j.operator.toList)
    (h : Condition.WellBoundAll q.wheres.conditions) : ∀ p ∈ q.pieces, p.Balanced := by
  intro p hp
  rcases List.mem_cons.1 hp with rfl | hp
  · have hselect : Mute ("select * from ".toList ++ quoteIdentifier q.table.toList) :=
      (Mute.of_bare (by decide)).append (.quoteIdentifier _)
    have hspace : Mute [' '] := .of_bare (by decide)
    have hjoined : Mute (q.joins.flatMap fun j => ' ' :: j.sql) :=
      .flatMap fun j hj => hspace.append (.join (hjoins j hj))
    have hkeyword : Mute (if q.wheres.isEmpty then [] else " where ".toList) := by
      split
      · exact .nil
      · exact .of_bare (by decide)
    exact ((hselect.append hjoined).append hkeyword).piece []
  · exact Condition.balanced_piecesAll [] q.wheres.conditions h p hp

/-- The question marks of a text written in pieces are labelled as its values are. -/
theorem questionMarks_pieces {ps : List Piece} (h : ∀ p ∈ ps, p.Balanced) :
    questionMarks false (ps.flatMap fun p => p.text.map (·, p.place)) =
      (ps.flatMap fun p => p.values.map (·, p.place)).map Prod.snd := by
  induction ps with
  | nil => rfl
  | cons p ps ih =>
    obtain ⟨hp, hps⟩ := List.forall_mem_cons.1 h
    have hquotes : QuotesBalanced ((p.text.map (·, p.place)).map Prod.fst) := by
      simpa [Function.comp_def] using hp.quotes
    rw [List.flatMap_cons, List.flatMap_cons, questionMarks_append_of_balanced hquotes, ih hps,
      questionMarks_const, hp.placeholders, List.map_append, List.map_map]
    simp only [Function.comp_def, List.map_const']

theorem exists_conditionAt?_of_mem_bound {q : Query} {value : Literal} {place : List Nat}
    (h : (value, place) ∈ q.bound) : ∃ c, q.conditionAt? place = some c ∧
      (∀ conditions, c ≠ .nested conditions) ∧ value ∈ c.bindings := by
  obtain ⟨p, hp, hvalue⟩ := List.mem_flatMap.1 h
  obtain ⟨v, hv, heq⟩ := List.mem_map.1 hvalue
  obtain ⟨rfl, rfl⟩ := Prod.mk.inj heq
  have hsome : p.values ≠ [] := List.ne_nil_of_mem hv
  rcases List.mem_cons.1 hp with rfl | hp
  · exact absurd rfl hsome
  · obtain ⟨n, k, c, way, d, hc, hplace, hd, hwrites⟩ :=
      Condition.exists_at?_of_mem_piecesAll [] q.wheres.conditions p hp hsome
    refine ⟨d, ?_, hwrites.single, hwrites.values ▸ hv⟩
    rw [conditionAt?, hplace, List.nil_append, Condition.at?, hc]
    exact hd

/-- There are as many placeholders as bindings, and each of them was written for the condition
from which the binding in the same position comes, however deep it is nested. -/
theorem placeholders_aligned {q : Query} (hjoins : ∀ j ∈ q.joins, Bare j.operator.toList)
    (h : Condition.WellBoundAll q.wheres.conditions) :
    q.written.map Prod.fst = q.sql.toList ∧ q.bound.map Prod.fst = q.bindings ∧
      (placeholders q.sql.toList).length = q.bindings.length ∧
      ∀ i position : Nat, (placeholders q.sql.toList)[i]? = some position →
        ∃ place value c, q.written[position]? = some ('?', place) ∧
          q.bound[i]? = some (value, place) ∧ q.conditionAt? place = some c ∧
          (∀ conditions, c ≠ .nested conditions) ∧ value ∈ c.bindings := by
  have hlabels := placeholders_map_getElem? q.written
  rw [written_fst, written, questionMarks_pieces (balanced_pieces hjoins h), ← written, ← bound,
    List.map_map] at hlabels
  have hlength := congrArg List.length hlabels
  simp only [List.length_map] at hlength
  refine ⟨q.written_fst, q.bound_fst, ?_, ?_⟩
  · rw [hlength, ← bound_fst, List.length_map]
  · intro i position hi
    have hlabel := congrArg (fun labels : List (Option (List Nat)) => labels[i]?) hlabels
    simp only [List.getElem?_map, hi, Option.map_some] at hlabel
    obtain ⟨⟨value, place⟩, hbound, hplace⟩ := Option.map_eq_some_iff.1 hlabel.symm
    obtain ⟨⟨c, place'⟩, hwritten, rfl⟩ := Option.map_eq_some_iff.1 hplace.symm
    have hmark : q.sql.toList[position]? = some '?' :=
      getElem?_of_mem_placeholders (List.mem_of_getElem? hi)
    rw [← written_fst, List.getElem?_map, hwritten] at hmark
    obtain rfl : c = '?' := Option.some.inj hmark
    obtain ⟨d, hd, hsingle, hvalue⟩ :=
      exists_conditionAt?_of_mem_bound (List.mem_of_getElem? hbound)
    exact ⟨place', value, d, hwritten, hbound, hd, hsingle, hvalue⟩

def crowded : Query where
  table := "t?"
  joins := [⟨"j", "a?", "<", "b", .left⟩]
  wheres := (WhereGroup.empty.nested .and
    ((WhereGroup.empty.compare .and "y\"?" "!" (.int 1)).compare .or "z" "<" .null)).raw .and
      "f(\"?\", ?)" [.int 2]

theorem placeholders_aligned_crowded :
    crowded.sql = "select * from \"t?\" left join \"j\" on \"a?\" < \"b\"" ++
        " where (\"y\"\"?\" ! ? or \"z\" < ?) and f(\"?\", ?)" ∧
      crowded.bindings = [.int 1, .null, .int 2] ∧
      (placeholders crowded.sql.toList).length = 3 ∧
      (placeholders crowded.sql.toList)[1]? = some 74 ∧
      ∃ place c, crowded.written[74]? = some ('?', place) ∧
        crowded.bound[1]? = some (.null, place) ∧ crowded.conditionAt? place = some c ∧
        c.sql = "\"z\" < ?".toList := by
  have hjoins : ∀ j ∈ crowded.joins, Bare j.operator.toList := by decide
  have hbound : Condition.WellBoundAll crowded.wheres.conditions :=
    ⟨⟨show Bare _ by decide, show Bare _ by decide, trivial⟩, ⟨by decide, by decide⟩, trivial⟩
  obtain ⟨-, -, hlength, haligned⟩ := placeholders_aligned hjoins hbound
  have hposition : (placeholders crowded.sql.toList)[1]? = some 74 := by decide +kernel
  refine ⟨by decide +kernel, by decide +kernel, hlength.trans (by decide +kernel), hposition, ?_⟩
  obtain ⟨place, value, c, hwritten, hboundAt, hc, -, -⟩ := haligned 1 74 hposition
  obtain ⟨rfl, rfl⟩ : value = .null ∧ place = [0, 1] := by
    have hat : crowded.bound[1]? = some (.null, [0, 1]) := by decide +kernel
    simpa [hat, eq_comm] using hboundAt
  refine ⟨_, c, hwritten, hboundAt, hc, ?_⟩
  obtain rfl := Option.some.inj hc
  decide +kernel

end Query

end Sift

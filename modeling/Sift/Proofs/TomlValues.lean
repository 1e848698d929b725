import Sift.Proofs.TomlScalars
import Sift.Proofs.TomlTables

/-!
# Values are read back

An array is read back on one line or spread over several, and an inline table entry by
entry. A value is taken if and only if it has no more levels of arrays and inline tables
than the reader allows.
-/

namespace Sift.Toml

open Sift.Text Sift.Grammar

namespace Value

mutual

def levels : Value → Nat
  | .array elements => levelsOfElements elements + 1
  | .table entries => levelsOfEntries entries + 1
  | _ => 0

def levelsOfElements : List Value → Nat
  | [] => 0
  | v :: vs => max (levels v) (levelsOfElements vs)

def levelsOfEntries : List (String × Value) → Nat
  | [] => 0
  | (_, v) :: entries => max (levels v) (levelsOfEntries entries)

end

theorem levels_array_le {vs : List Value} {depth : Nat} :
    (Value.array vs).levels ≤ depth + 1 ↔ ∀ v ∈ vs, v.levels ≤ depth := by
  rw [levels, Nat.add_le_add_iff_right]
  induction vs with
  | nil => simp [levelsOfElements]
  | cons v vs ih => rw [levelsOfElements, Nat.max_le, ih, List.forall_mem_cons]

theorem levels_table_le {es : List (String × Value)} {depth : Nat} :
    (Value.table es).levels ≤ depth + 1 ↔ ∀ e ∈ es, e.2.levels ≤ depth := by
  rw [levels, Nat.add_le_add_iff_right]
  induction es with
  | nil => simp [levelsOfEntries]
  | cons e es ih =>
    obtain ⟨k, v⟩ := e
    rw [levelsOfEntries, Nat.max_le, ih, List.forall_mem_cons]

theorem charsOfElements_eq (spread : Bool) (vs : List Value) :
    charsOfElements spread vs = vs.map (chars spread) := by
  induction vs with
  | nil => rfl
  | cons v vs ih => rw [charsOfElements, ih, List.map_cons]

theorem charsOfEntries_eq (spread : Bool) (es : List (String × Value)) :
    charsOfEntries spread es = es.map fun e => entryText e.1 (e.2.chars spread) := by
  induction es with
  | nil => rfl
  | cons e es ih =>
    obtain ⟨k, v⟩ := e
    rw [charsOfEntries, ih, List.map_cons]

/-- What the value itself has to be like so that it can be read back: no NaN, dates and times
with their parts in the ranges, tables without repeated keys. -/
def IsWritable : Value → Prop
  | .float x => x.isNaN = false
  | .dateTime d => d.IsValid
  | .table entries => KeysDistinct entries
  | _ => True

theorem IsWritable.distinct {v : Value} (h : v.IsWritable) : v.IsDistinct := by
  cases v with
  | table entries => exact h
  | _ => trivial

theorem isScalar_of_writable {v : Value} (harray : ∀ vs, v ≠ .array vs)
    (htable : ∀ es, v ≠ .table es) (h : v.IsWritable) : v.IsScalar := by
  cases v with
  | array vs => exact absurd rfl (harray vs)
  | table es => exact absurd rfl (htable es)
  | _ => exact h

def startsValue (c : Char) : Bool := isRunChar c || isQuote c || c = '[' || c = '\x7b'

theorem chars_array_head (vs : List Value) (spread : Bool) (s : List Char) :
    ∃ t, (Value.array vs).chars spread ++ s = '[' :: t := by
  rw [chars, arrayText]
  split
  · exact ⟨_, rfl⟩
  · exact ⟨_, rfl⟩

theorem chars_table_head (es : List (String × Value)) (spread : Bool) (s : List Char) :
    ∃ t, (Value.table es).chars spread ++ s = '\x7b' :: t := by
  rw [chars, inlineTableText]
  split
  · exact ⟨_, rfl⟩
  · exact ⟨_, rfl⟩

theorem chars_head {v : Value} (h : Everywhere IsWritable v) (spread : Bool) (s : List Char) :
    ∃ c t, v.chars spread ++ s = c :: t ∧ startsValue c = true := by
  rcases scalar_or_container v with ⟨vs, rfl⟩ | ⟨es, rfl⟩ | ⟨harray, htable⟩
  · obtain ⟨t, htext⟩ := chars_array_head vs spread s
    exact ⟨'[', t, htext, rfl⟩
  · obtain ⟨t, htext⟩ := chars_table_head es spread s
    exact ⟨'\x7b', t, htext, rfl⟩
  · have hscalar := isScalar_of_writable harray htable ((everywhere_scalar harray htable).1 h)
    obtain ⟨c, t, htext, hc⟩ := chars_scalar_head hscalar spread
    refine ⟨c, t ++ s, by rw [htext, List.cons_append], ?_⟩
    rw [startsValue]
    rcases hc with hc | hc
    · simp [hc]
    · simp [hc]

theorem startsValue_classes {c : Char} (h : startsValue c = true) :
    isSpace c = false ∧ c ≠ '\n' ∧ c ≠ '#' ∧ c ≠ ']' := by
  have hall : ∀ c ∈ [' ', '\t', '\n', '#', ']'], startsValue c = false :=
    forall_mem_of_all (by decide)
  have hne (d : Char) (hd : d ∈ [' ', '\t', '\n', '#', ']']) : c ≠ d := by
    rintro rfl
    exact Bool.false_ne_true ((hall c hd).symm.trans h)
  exact ⟨by simp [isSpace, hne ' ' (by decide), hne '\t' (by decide)], hne _ (by decide),
    hne _ (by decide), hne _ (by decide)⟩

theorem skipGap_chars {v : Value} (h : Everywhere IsWritable v) (spread : Bool) (s : List Char) :
    skipGap false (v.chars spread ++ s) = v.chars spread ++ s := by
  obtain ⟨c, t, htext, hc⟩ := chars_head h spread s
  obtain ⟨hspace, hnewline, hcomment, -⟩ := startsValue_classes hc
  rw [htext, skipGap, if_neg hnewline, if_neg Bool.false_ne_true, if_neg (by simp [hspace]),
    if_neg hcomment]

theorem skipSpaces_chars {v : Value} (h : Everywhere IsWritable v) (spread : Bool)
    (s : List Char) : skipSpaces (v.chars spread ++ s) = v.chars spread ++ s := by
  obtain ⟨c, t, htext, hc⟩ := chars_head h spread s
  rw [htext]
  exact skipSpaces_of_stops (startsValue_classes hc).1

end Value

open Value (Everywhere IsWritable)

section
variable {read : ValueReader} {s after next rest : List Char} {v : Value}

theorem taken_elements_end (hs : skipGap false s = ']' :: rest) :
    taken (elements read s) = some ([], rest) := by
  have hlength : rest.length < s.length := by
    have hgap := length_skipGap_le false s
    rw [hs] at hgap
    exact hgap
  rw [elements]
  split
  · next heq =>
    obtain ⟨-, rfl⟩ := List.cons.inj (hs.symm.trans heq)
    rw [Rest.of?_eq hlength]
    rfl
  · next hne => exact absurd hs (hne rest)

theorem taken_elements_none (hs : ∀ r, skipGap false s ≠ ']' :: r)
    (hread : taken (read (skipGap false s)) = none) : taken (elements read s) = none := by
  rw [elements]
  split
  · next heq => exact absurd heq (hs _)
  · rw [taken_eq_none hread]
    rfl

theorem taken_elements_comma (hs : ∀ r, skipGap false s ≠ ']' :: r)
    (hread : taken (read (skipGap false s)) = some (v, after))
    (hafter : skipGap false after = ',' :: next) :
    taken (elements read s) = (taken (elements read next)).map fun r => (v :: r.1, r.2) := by
  obtain ⟨hlength, hread⟩ := taken_eq_some hread
  rw [elements]
  split
  · next heq => exact absurd heq (hs _)
  · rw [hread]
    dsimp only
    split
    · next heq =>
      obtain ⟨-, rfl⟩ := List.cons.inj (hafter.symm.trans heq)
      cases elements read next with
      | none => rfl
      | some r => rfl
    · next heq => exact absurd (List.cons.inj (hafter.symm.trans heq)).1 (by decide)
    · next hne _ => exact absurd hafter (hne next)

theorem taken_elements_last (hs : ∀ r, skipGap false s ≠ ']' :: r)
    (hread : taken (read (skipGap false s)) = some (v, after))
    (hafter : skipGap false after = ']' :: rest) :
    taken (elements read s) = some ([v], rest) := by
  obtain ⟨hlength, hread⟩ := taken_eq_some hread
  have hlength' : rest.length < s.length := by
    have hgap := length_skipGap_le false s
    have hgap' := length_skipGap_le false after
    rw [hafter, List.length_cons] at hgap'
    omega
  rw [elements]
  split
  · next heq => exact absurd heq (hs _)
  · rw [hread]
    dsimp only
    split
    · next heq => exact absurd (List.cons.inj (hafter.symm.trans heq)).1 (by decide)
    · next heq =>
      obtain ⟨-, rfl⟩ := List.cons.inj (hafter.symm.trans heq)
      rw [Rest.of?_eq hlength']
      rfl
    · next hne => exact absurd hafter (hne rest)

/-- A key, an equals sign with a space on either side, and what is read after it. -/
theorem taken_keyValue {key : String} {value : List Char}
    (hs : skipSpaces s = entryText key value ++ rest)
    (hvalue : skipSpaces (value ++ rest) = value ++ rest) :
    taken (keyValue read s) =
      (taken (read (value ++ rest))).map fun r => (([key], r.1), r.2) := by
  have hequals : skipSpaces (' ' :: '=' :: ' ' :: (value ++ rest)) =
      '=' :: ' ' :: (value ++ rest) := rfl
  have htext : skipSpaces s = pathText [key] ++ ' ' :: '=' :: ' ' :: (value ++ rest) := by
    rw [hs, entryText, pathText_single]
    simp only [List.append_assoc, List.cons_append, List.nil_append]
  have hpath := taken_keyPath (List.cons_ne_nil key []) htext (by rw [stops_cons]; decide)
    (by rw [hequals, stops_cons]; decide)
  have hone : [key].length < nestingLimit := (by decide : 1 < nestingLimit)
  rw [if_pos hone, hequals] at hpath
  obtain ⟨hlength, hkey⟩ := taken_eq_some hpath
  have hspace : skipSpaces (' ' :: (value ++ rest)) = value ++ rest := hvalue
  have hread : taken (read (value ++ rest)) =
      taken (read (skipSpaces (' ' :: (value ++ rest)))) := by
    rw [hspace]
  rw [hread]
  simp only [keyValue, hkey]
  cases read (skipSpaces (' ' :: (value ++ rest))) with
  | none => rfl
  | some r =>
    obtain ⟨v, r, hrest⟩ := r
    have hlength' : r.length < s.length := by
      rw [hspace] at hrest
      simp only [List.length_cons] at hlength
      omega
    simp only [Rest.of?_eq hlength']
    rfl

/-- What may stand after the last of several entries, or between two. -/
theorem taken_pairs_comma {pair : List String × Value}
    (hpair : taken (keyValue read s) = some (pair, ',' :: next)) :
    taken (pairs read s) = (taken (pairs read next)).map fun r => (pair :: r.1, r.2) := by
  obtain ⟨hlength, hkey⟩ := taken_eq_some hpair
  have hcomma : skipSpaces (',' :: next) = ',' :: next :=
    skipSpaces_of_stops (by rw [stops_cons]; rfl)
  have hlength' : next.length < s.length := Nat.lt_trans (Nat.lt_succ_self _) hlength
  rw [pairs, hkey]
  simp only [hcomma, dif_pos hlength']
  cases pairs read next with
  | none => rfl
  | some r => rfl

theorem taken_pairs_last {pair : List String × Value}
    (hpair : taken (keyValue read s) = some (pair, ' ' :: '\x7d' :: rest)) :
    taken (pairs read s) = some ([pair], rest) := by
  obtain ⟨hlength, hkey⟩ := taken_eq_some hpair
  have hbrace : skipSpaces (' ' :: '\x7d' :: rest) = '\x7d' :: rest := rfl
  have hlength' : rest.length < s.length := by
    simp only [List.length_cons] at hlength
    omega
  rw [pairs, hkey]
  simp only [hbrace, Rest.of?_eq hlength']
  rfl

theorem taken_pairs_none (hpair : taken (keyValue read s) = none) :
    taken (pairs read s) = none := by
  rw [pairs, taken_eq_none hpair]
  rfl

end

/-- The reader takes the text of the value if and only if it has no more levels than that. -/
def Reads (read : ValueReader) (depth : Nat) (v : Value) : Prop :=
  ∀ (spread : Bool) {rest : List Char}, EndsValue rest →
    taken (read (v.chars spread ++ rest)) =
      if v.levels ≤ depth then some (v.ordered, rest) else none

section
variable {read : ValueReader} {depth : Nat}

theorem ends_comma (s : List Char) : EndsValue (',' :: s) := .mark (by decide) s

theorem ends_bracket (s : List Char) : EndsValue (']' :: s) := .mark (by decide) s

/-- One element of an array and what follows it. -/
theorem taken_elements_cons {v : Value} (hwritable : Everywhere IsWritable v)
    (hreads : Reads read depth v) (spread : Bool) {s after : List Char}
    (hs : skipGap false s = v.chars spread ++ after) (hafter : EndsValue after) :
    (∀ r, skipGap false s ≠ ']' :: r) ∧
      taken (read (skipGap false s)) =
        if v.levels ≤ depth then some (v.ordered, after) else none := by
  refine ⟨fun r heq => ?_, by rw [hs]; exact hreads spread hafter⟩
  obtain ⟨c, t, htext, hc⟩ := Value.chars_head hwritable spread after
  rw [hs, htext] at heq
  exact (Value.startsValue_classes hc).2.2.2 (List.cons.inj heq).1

theorem taken_elements_more {v : Value} {vs : List Value} (hwritable : Everywhere IsWritable v)
    (hreads : Reads read depth v) {spread : Bool} {s next rest : List Char}
    (hs : skipGap false s = v.chars spread ++ ',' :: next)
    (hnext : taken (elements read next) =
      if ∀ w ∈ vs, w.levels ≤ depth then some (vs.map Value.ordered, rest) else none) :
    taken (elements read s) =
      if ∀ w ∈ v :: vs, w.levels ≤ depth then some ((v :: vs).map Value.ordered, rest)
      else none := by
  obtain ⟨hstart, hfirst⟩ := taken_elements_cons hwritable hreads spread hs (ends_comma next)
  by_cases hlevels : v.levels ≤ depth
  · rw [if_pos hlevels] at hfirst
    rw [taken_elements_comma hstart hfirst rfl, hnext]
    simp only [List.forall_mem_cons, hlevels, true_and]
    split
    · rfl
    · rfl
  · rw [if_neg hlevels] at hfirst
    rw [taken_elements_none hstart hfirst, if_neg fun h => hlevels (h v (List.mem_cons_self ..))]

/-- The elements of an array that is spread over several lines. -/
theorem taken_elements_spread {vs : List Value} (hwritable : ∀ v ∈ vs, Everywhere IsWritable v)
    (hreads : ∀ v ∈ vs, Reads read depth v) (spread : Bool) (rest : List Char) :
    taken (elements read ((vs.map (Value.chars spread)).flatMap
        (fun e => '\n' :: List.replicate 4 ' ' ++ e ++ [',']) ++ '\n' :: ']' :: rest)) =
      if ∀ v ∈ vs, v.levels ≤ depth then some (vs.map Value.ordered, rest) else none := by
  induction vs with
  | nil => exact taken_elements_end rfl
  | cons v vs ih =>
    obtain ⟨hv, hvs⟩ := List.forall_mem_cons.1 hwritable
    obtain ⟨hread, hreads⟩ := List.forall_mem_cons.1 hreads
    have hnext := ih hvs hreads
    generalize hrest : (vs.map (Value.chars spread)).flatMap
      (fun e => '\n' :: List.replicate 4 ' ' ++ e ++ [',']) ++ '\n' :: ']' :: rest = next at hnext
    have htext : ((v :: vs).map (Value.chars spread)).flatMap
        (fun e => '\n' :: List.replicate 4 ' ' ++ e ++ [',']) ++ '\n' :: ']' :: rest =
        '\n' :: ' ' :: ' ' :: ' ' :: ' ' :: (v.chars spread ++ ',' :: next) := by
      rw [← hrest]
      simp [List.flatMap_cons, List.append_assoc]
    rw [htext]
    exact taken_elements_more hv hread (Value.skipGap_chars hv spread (',' :: next)) hnext

theorem intercalate_cons_cons (separator first second : List Char) (others : List (List Char)) :
    separator.intercalate (first :: second :: others) =
      first ++ (separator ++ separator.intercalate (second :: others)) := by
  simp [List.intercalate]

theorem exists_intercalate_cons (separator first : List Char) (others : List (List Char)) :
    ∃ tail, separator.intercalate (first :: others) = first ++ tail := by
  cases others with
  | nil => exact ⟨[], by simp [List.intercalate]⟩
  | cons second others => exact ⟨_, intercalate_cons_cons separator first second others⟩

/-- The elements of an array on one line. -/
theorem taken_elements_line {vs : List Value} (hsome : vs ≠ [])
    (hwritable : ∀ v ∈ vs, Everywhere IsWritable v) (hreads : ∀ v ∈ vs, Reads read depth v)
    (spread : Bool) {s : List Char} (rest : List Char)
    (hs : skipGap false s = [',', ' '].intercalate (vs.map (Value.chars spread)) ++ ']' :: rest) :
    taken (elements read s) =
      if ∀ v ∈ vs, v.levels ≤ depth then some (vs.map Value.ordered, rest) else none := by
  induction vs generalizing s with
  | nil => exact absurd rfl hsome
  | cons v vs ih =>
    obtain ⟨hv, hvs⟩ := List.forall_mem_cons.1 hwritable
    obtain ⟨hread, hreads⟩ := List.forall_mem_cons.1 hreads
    cases vs with
    | nil =>
      have hlast : skipGap false s = v.chars spread ++ ']' :: rest := by
        rw [hs]
        simp [List.intercalate]
      obtain ⟨hstart, hfirst⟩ := taken_elements_cons hv hread spread hlast (ends_bracket rest)
      by_cases hlevels : v.levels ≤ depth
      · rw [if_pos hlevels] at hfirst
        rw [taken_elements_last hstart hfirst rfl, if_pos (by simpa using hlevels)]
        rfl
      · rw [if_neg hlevels] at hfirst
        rw [taken_elements_none hstart hfirst,
          if_neg fun h => hlevels (h v (List.mem_cons_self ..))]
    | cons second others =>
      generalize hrest : [',', ' '].intercalate ((second :: others).map (Value.chars spread)) ++
        ']' :: rest = next at ih
      have hmore : skipGap false s = v.chars spread ++ ',' :: ' ' :: next := by
        rw [hs, ← hrest]
        simp only [List.map_cons, intercalate_cons_cons, List.append_assoc]
        rfl
      have hnext : skipGap false (' ' :: next) = next := by
        obtain ⟨tail, htail⟩ := exists_intercalate_cons [',', ' '] (second.chars spread)
          (others.map (Value.chars spread))
        rw [← hrest, List.map_cons, htail, List.append_assoc]
        exact Value.skipGap_chars (List.forall_mem_cons.1 hvs).1 spread _
      exact taken_elements_more hv hread hmore (ih (List.cons_ne_nil _ _) hvs hreads hnext)

/-- Entries begin with the key of the first. -/
theorem exists_entries_text (e : String × Value) (others : List (String × Value)) (spread : Bool)
    (rest : List Char) :
    ∃ tail, [',', ' '].intercalate
      ((e :: others).map fun e => entryText e.1 (e.2.chars spread)) ++ rest =
        pathText [e.1] ++ tail := by
  obtain ⟨tail, htail⟩ := exists_intercalate_cons [',', ' ']
    (entryText e.1 (e.2.chars spread)) (others.map fun e => entryText e.1 (e.2.chars spread))
  rw [List.map_cons, htail, entryText, ← pathText_single]
  simp only [List.append_assoc]
  exact ⟨_, rfl⟩

theorem taken_keyValue_entry {e : String × Value} (hwritable : Everywhere IsWritable e.2)
    (hreads : Reads read depth e.2) {spread : Bool} {s after : List Char}
    (hs : skipSpaces s = entryText e.1 (e.2.chars spread) ++ after) (hafter : EndsValue after) :
    taken (keyValue read s) =
      if e.2.levels ≤ depth then some (([e.1], e.2.ordered), after) else none := by
  rw [taken_keyValue hs (Value.skipSpaces_chars hwritable spread after), hreads spread hafter]
  split
  · rfl
  · rfl

theorem taken_pairs_more {e : String × Value} {es : List (String × Value)}
    (hwritable : Everywhere IsWritable e.2) (hreads : Reads read depth e.2) {spread : Bool}
    {s next rest : List Char}
    (hs : skipSpaces s = entryText e.1 (e.2.chars spread) ++ ',' :: next)
    (hnext : taken (pairs read next) =
      if ∀ d ∈ es, d.2.levels ≤ depth then some (es.map fun d => ([d.1], d.2.ordered), rest)
      else none) :
    taken (pairs read s) =
      if ∀ d ∈ e :: es, d.2.levels ≤ depth then
        some ((e :: es).map fun d => ([d.1], d.2.ordered), rest) else none := by
  have hfirst := taken_keyValue_entry hwritable hreads hs (ends_comma next)
  by_cases hlevels : e.2.levels ≤ depth
  · rw [if_pos hlevels] at hfirst
    rw [taken_pairs_comma hfirst, hnext]
    simp only [List.forall_mem_cons, hlevels, true_and]
    split
    · rfl
    · rfl
  · rw [if_neg hlevels] at hfirst
    rw [taken_pairs_none hfirst, if_neg fun h => hlevels (h e (List.mem_cons_self ..))]

/-- The entries of an inline table after its opening brace. -/
theorem taken_pairs {es : List (String × Value)} (hsome : es ≠ [])
    (hwritable : ∀ e ∈ es, Everywhere IsWritable e.2) (hreads : ∀ e ∈ es, Reads read depth e.2)
    (spread : Bool) {s : List Char} (rest : List Char)
    (hs : skipSpaces s = [',', ' '].intercalate
      (es.map fun e => entryText e.1 (e.2.chars spread)) ++ ' ' :: '\x7d' :: rest) :
    taken (pairs read s) =
      if ∀ e ∈ es, e.2.levels ≤ depth then some (es.map fun e => ([e.1], e.2.ordered), rest)
      else none := by
  induction es generalizing s with
  | nil => exact absurd rfl hsome
  | cons e es ih =>
    obtain ⟨hv, hvs⟩ := List.forall_mem_cons.1 hwritable
    obtain ⟨hread, hreads⟩ := List.forall_mem_cons.1 hreads
    cases es with
    | nil =>
      have hs' : skipSpaces s = entryText e.1 (e.2.chars spread) ++ ' ' :: '\x7d' :: rest := by
        rw [hs]
        simp [List.intercalate]
      have hlast := taken_keyValue_entry hv hread hs' (.brace rest)
      by_cases hlevels : e.2.levels ≤ depth
      · rw [if_pos hlevels] at hlast
        rw [taken_pairs_last hlast, if_pos (by simpa using hlevels)]
        rfl
      · rw [if_neg hlevels] at hlast
        rw [taken_pairs_none hlast, if_neg fun h => hlevels (h e (List.mem_cons_self ..))]
    | cons second others =>
      obtain ⟨tail, htail⟩ := exists_entries_text second others spread (' ' :: '\x7d' :: rest)
      have hmore : skipSpaces s = entryText e.1 (e.2.chars spread) ++
          ',' :: ' ' :: (pathText [second.1] ++ tail) := by
        rw [hs, ← htail]
        simp only [List.map_cons, intercalate_cons_cons, List.append_assoc]
        rfl
      have hnext : skipSpaces (' ' :: (pathText [second.1] ++ tail)) = pathText [second.1] ++ tail :=
        skipSpaces_pathText (List.cons_ne_nil _ _) _
      exact taken_pairs_more hv hread hmore
        (ih (List.cons_ne_nil _ _) hvs hreads (hnext.trans htail.symm))

end

theorem taken_value_array (depth : Nat) (inner : List Char) :
    taken (value (depth + 1) ('[' :: inner)) =
      (taken (elements (value depth) inner)).map fun r => (.array r.1, r.2) := by
  cases helements : elements (value depth) inner with
  | none =>
    simp only [value, helements]
    rfl
  | some r =>
    obtain ⟨vs, r, hlength⟩ := r
    have hlength' : r.length < ('[' :: inner).length := Nat.lt_trans hlength (Nat.lt_succ_self _)
    simp only [value, helements, Rest.of?_eq hlength']
    rfl

theorem taken_value_emptyTable (depth : Nat) (rest : List Char) :
    taken (value (depth + 1) ('\x7b' :: '\x7d' :: rest)) = some (.table [], rest) := by
  have hlength : rest.length < ('\x7b' :: '\x7d' :: rest).length := by
    simp only [List.length_cons]
    omega
  change taken ((Rest.of? ('\x7b' :: '\x7d' :: rest) rest).map fun r => (Value.table [], r)) = _
  rw [Rest.of?_eq hlength]
  rfl

theorem taken_value_table (depth : Nat) {inner : List Char}
    (hinner : Stops (· = '\x7d') (skipSpaces inner)) :
    taken (value (depth + 1) ('\x7b' :: inner)) =
      (taken (pairs (value depth) inner)).bind fun r =>
        (tableOfPairs r.1).map fun v => (v, r.2) := by
  have hfilled : ∀ t, skipSpaces inner ≠ '\x7d' :: t := by
    intro t heq
    rw [heq, stops_cons] at hinner
    exact absurd hinner (by decide)
  cases hpairs : pairs (value depth) inner with
  | none =>
    simp only [value, hpairs]
    rfl
  | some r =>
    obtain ⟨entries, r, hlength⟩ := r
    have hlength' : r.length < ('\x7b' :: inner).length :=
      Nat.lt_trans hlength (Nat.lt_succ_self _)
    simp only [value, hpairs, Rest.of?_eq hlength', taken, Option.map_some, Option.bind_some]
    cases tableOfPairs entries with
    | none => rfl
    | some v => rfl

theorem value_eq_scalar (depth : Nat) {s : List Char} (harray : ∀ t, s ≠ '[' :: t)
    (htable : ∀ t, s ≠ '\x7b' :: t) : value depth s = scalar s := by
  cases depth with
  | zero => rfl
  | succ depth =>
    rw [value]
    beta_reduce
    split
    · exact absurd rfl (harray _)
    · exact absurd rfl (htable _)
    · rfl

theorem scalar_bracket {c : Char} (hc : c = '[' ∨ c = '\x7b') (s : List Char) :
    scalar (c :: s) = none := by
  have hclass : isQuote c = false ∧ isRunChar c = false := by
    rcases hc with rfl | rfl
    · decide
    · decide
  have hrun : takeRun (c :: s) = ([], c :: s) := by
    unfold takeRun
    rw [List.takeWhile_cons_of_neg (by simp [hclass.2]),
      List.dropWhile_cons_of_neg (by simp [hclass.2])]
    rfl
  have hnone : scalarOfRun? [] = none := by decide
  rw [scalar, string?_eq_none hclass.1, hrun]
  simp only [hnone]

theorem reads_scalar {v : Value} (harray : ∀ vs, v ≠ .array vs) (htable : ∀ es, v ≠ .table es)
    (hv : IsWritable v) (depth : Nat) : Reads (value depth) depth v := by
  intro spread rest hrest
  have hscalar := Value.isScalar_of_writable harray htable hv
  have hlevels : v.levels ≤ depth := by
    cases v with
    | array vs => exact absurd rfl (harray vs)
    | table es => exact absurd rfl (htable es)
    | _ => exact Nat.zero_le depth
  obtain ⟨c, t, htext, hc⟩ := chars_scalar_head hscalar spread
  have hclass : c ≠ '[' ∧ c ≠ '\x7b' := by
    have hall : ∀ d ∈ ['[', '\x7b'], isRunChar d = false ∧ isQuote d = false :=
      forall_mem_of_all (by decide)
    have hne (d : Char) (hd : d ∈ ['[', '\x7b']) : c ≠ d := by
      rintro rfl
      rw [(hall c hd).1, (hall c hd).2] at hc
      simp at hc
    exact ⟨hne _ (by decide), hne _ (by decide)⟩
  have hvalue : value depth (v.chars spread ++ rest) = scalar (v.chars spread ++ rest) := by
    rw [htext, List.cons_append]
    exact value_eq_scalar depth (fun t heq => hclass.1 (List.cons.inj heq).1)
      fun t heq => hclass.2 (List.cons.inj heq).1
  rw [hvalue, taken_scalar hscalar spread hrest, if_pos hlevels, Value.ordered_scalar harray htable]

theorem reads_array {vs : List Value} (hwritable : ∀ v ∈ vs, Everywhere IsWritable v) {depth : Nat}
    (hreads : ∀ v ∈ vs, Reads (value depth) depth v) :
    Reads (value (depth + 1)) (depth + 1) (.array vs) := by
  intro spread rest _
  have hinner (inner : List Char) (htext : (Value.array vs).chars spread = '[' :: inner)
      (hread : taken (elements (value depth) (inner ++ rest)) =
        if ∀ v ∈ vs, v.levels ≤ depth then some (vs.map Value.ordered, rest) else none) :
      taken (value (depth + 1) ((Value.array vs).chars spread ++ rest)) =
        if (Value.array vs).levels ≤ depth + 1 then some ((Value.array vs).ordered, rest)
        else none := by
    rw [htext, List.cons_append, taken_value_array, hread, Value.ordered, Value.orderedElements_eq]
    simp only [Value.levels_array_le]
    split
    · rfl
    · rfl
  have hchars : (Value.array vs).chars spread = arrayText spread (vs.map (Value.chars spread)) := by
    rw [Value.chars, Value.charsOfElements_eq]
  by_cases hspread : (spread && decide (2 ≤ (vs.map (Value.chars spread)).length)) = true
  · rw [arrayText, if_pos hspread, List.cons_append] at hchars
    refine hinner _ hchars ?_
    rw [List.append_assoc]
    exact taken_elements_spread hwritable hreads spread rest
  · rw [arrayText, if_neg hspread, List.cons_append] at hchars
    refine hinner _ hchars ?_
    rw [List.append_assoc]
    cases vs with
    | nil => exact taken_elements_end rfl
    | cons v others =>
      refine taken_elements_line (List.cons_ne_nil v others) hwritable hreads spread rest ?_
      obtain ⟨tail, htail⟩ := exists_intercalate_cons [',', ' '] (v.chars spread)
        (others.map (Value.chars spread))
      rw [List.map_cons, htail, List.append_assoc, List.append_assoc]
      exact Value.skipGap_chars (hwritable v (List.mem_cons_self ..)) spread _

theorem reads_table {es : List (String × Value)} (hdistinct : KeysDistinct es)
    (hwritable : ∀ e ∈ es, Everywhere IsWritable e.2) {depth : Nat}
    (hreads : ∀ e ∈ es, Reads (value depth) depth e.2) :
    Reads (value (depth + 1)) (depth + 1) (.table es) := by
  intro spread rest _
  have hchars : (Value.table es).chars spread =
      inlineTableText (es.map fun e => entryText e.1 (e.2.chars spread)) := by
    rw [Value.chars, Value.charsOfEntries_eq]
  simp only [Value.levels_table_le]
  cases es with
  | nil => exact taken_value_emptyTable depth rest
  | cons e others =>
    -- the first key follows the brace and a space, and no key begins like the end of a table
    obtain ⟨tail, htail⟩ := exists_entries_text e others spread (' ' :: '\x7d' :: rest)
    have htext : (Value.table (e :: others)).chars spread ++ rest =
        '\x7b' :: ' ' :: (pathText [e.1] ++ tail) := by
      rw [hchars, inlineTableText, if_neg (by simp), ← htail]
      simp only [List.cons_append, List.append_assoc, List.nil_append]
    have hspace : skipSpaces (' ' :: (pathText [e.1] ++ tail)) = pathText [e.1] ++ tail :=
      skipSpaces_pathText (List.cons_ne_nil _ _) tail
    have hbrace : Stops (· = '\x7d') (skipSpaces (' ' :: (pathText [e.1] ++ tail))) := by
      obtain ⟨c, t, hc, -, -, -, -, -, hne⟩ := pathText_classes (List.cons_ne_nil e.1 []) tail
      rw [hspace, hc, stops_cons]
      exact decide_eq_false hne
    have hread := taken_pairs (List.cons_ne_nil e others) hwritable hreads spread rest
      (hspace.trans htail.symm)
    rw [htext, taken_value_table depth hbrace, hread]
    split
    · simp only [Option.bind_some, tableOfPairs_single hdistinct, Option.map_some,
        Value.ordered]
    · rfl

theorem reads_zero {v : Value} {c : Char} (hc : c = '[' ∨ c = '\x7b')
    (hhead : ∀ spread s, ∃ t, v.chars spread ++ s = c :: t) (hlevels : ¬ v.levels ≤ 0) :
    Reads (value 0) 0 v := by
  intro spread rest _
  obtain ⟨t, htext⟩ := hhead spread rest
  rw [htext, if_neg hlevels]
  change taken (scalar (c :: t)) = none
  rw [scalar_bracket hc]
  rfl

theorem reads_value {v : Value} (hv : Everywhere IsWritable v) (depth : Nat) :
    Reads (value depth) depth v := by
  induction v using Value.induction generalizing depth with
  | scalar v harray htable =>
    exact reads_scalar harray htable ((Value.everywhere_scalar harray htable).1 hv) depth
  | array vs ih =>
    rw [Value.everywhere_array] at hv
    cases depth with
    | zero => exact reads_zero (.inl rfl) (Value.chars_array_head vs) (Nat.not_succ_le_zero _)
    | succ depth => exact reads_array hv.2 fun v hmem => ih v hmem (hv.2 v hmem) depth
  | table es ih =>
    rw [Value.everywhere_table] at hv
    cases depth with
    | zero => exact reads_zero (.inr rfl) (Value.chars_table_head es) (Nat.not_succ_le_zero _)
    | succ depth => exact reads_table hv.1 hv.2 fun e hmem => ih e hmem (hv.2 e hmem) depth

end Sift.Toml

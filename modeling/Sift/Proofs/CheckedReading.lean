import Sift.Proofs.Bytes

/-!
# Readers that can fail

The readers of an expression once more, as readers of bytes with every step checked. A reader
has no result at all if it would cut a text within a character or behind its end, or take more
from a count than there is. All of them have a result, and it is that of the readers without
checks.
-/

namespace Sift.Checked

open Sift.Text Sift.Grammar

def peek? (text : List Char) (pos : Nat) : Option (Option Char) :=
  (cutFrom? text pos).map List.head?

theorem lt_byteLength_of_peek? {text : List Char} {pos : Nat} {c : Char}
    (h : peek? text pos = some (some c)) : pos + c.utf8Size ≤ byteLength text := by
  obtain ⟨after, hcut, hhead⟩ := Option.map_eq_some_iff.1 h
  obtain ⟨s, rfl⟩ := List.head?_eq_some_iff.1 hhead
  rw [← byteLength_of_cutFrom? hcut, byteLength_cons]
  omega

def skipBlanks? (text : List Char) (pos : Nat) : Option Nat :=
  match _ : peek? text pos with
  | none => none
  | some none => some pos
  | some (some c) => if isBlank c then skipBlanks? text (pos + 1) else some pos
termination_by byteLength text - pos
decreasing_by
  have hle := lt_byteLength_of_peek? ‹_›
  have hsize := c.utf8Size_pos
  omega

def quotedFrom? (text : List Char) (pos : Nat) (read : List Char) :
    Option (Option (List Char × Nat)) :=
  match _ : peek? text pos with
  | none => none
  | some none => some none
  | some (some c) =>
    if c = '\'' then some (some (read, pos + c.utf8Size))
    else if c = '\\' then
      match _ : peek? text (pos + c.utf8Size) with
      | none => none
      | some none => some none
      | some (some d) => quotedFrom? text (pos + c.utf8Size + d.utf8Size) (read ++ [d])
    else quotedFrom? text (pos + c.utf8Size) (read ++ [c])
termination_by byteLength text - pos
decreasing_by
  · have hle := lt_byteLength_of_peek? ‹peek? text pos = _›
    have hsize := c.utf8Size_pos
    omega
  · have hle := lt_byteLength_of_peek? ‹_›
    have hsize := c.utf8Size_pos
    omega

/-- The bytes from byte `n` on, if there are as many. -/
def sliceFrom? (bs : List Char) (n : Nat) : Option (List Char) :=
  if n ≤ bs.length then some (bs.drop n) else none

def sub? (m n : Nat) : Option Nat := if n ≤ m then some (m - n) else none

def countDigits (bs : List Char) : Nat := (bs.takeWhile isDigit).length

def numberBytes? (s : List Char) : Option Nat := do
  let sign := if (bytes s).head? = some '-' then 1 else 0
  let whole := countDigits (← sliceFrom? (bytes s) sign)
  if whole = 0 then return 0
  else if (bytes s)[sign + whole]? = some '.' then
    let fraction := countDigits (← sliceFrom? (bytes s) (sign + whole + 1))
    return if fraction = 0 then sign + whole else sign + whole + 1 + fraction
  else return sign + whole

def numeral? (text : List Char) : Option Literal :=
  match intOfText? text with
  | some i =>
    if Int64.minValue.toInt ≤ i ∧ i ≤ Int64.maxValue.toInt then some (.int (Int64.ofInt i))
    else some (.float (Binary64.ofInt i))
  | none => (Decimal.ofText? text).map fun d => .float (Binary64.ofDecimal d)

def number? (s : List Char) : Option (Option (Literal × Nat)) := do
  let n ← numberBytes? s
  if n = 0 then return none
  else
    let text ← cutTo? s n
    return (numeral? text).map (·, n)

def wordBytes (s : List Char) : Nat := ((bytes s).takeWhile isWordChar).length

/-- A keyword as a whole word. The word is cut off whatever it begins with. -/
def keyword? (s : List Char) : Option (Option (Literal × Nat)) := do
  let word ← cutTo? s (wordBytes s)
  return (keywords.lookup (String.ofList word)).map (·, wordBytes s)

def bare? (s : List Char) : Option (Option (Literal × Nat)) := do
  if (bytes s).head?.any startsWord then
    let word ← cutTo? s (wordBytes s)
    return if (keywords.lookup (String.ofList word)).isSome then none
      else some (.string (String.ofList word), byteLength word)
  else return none

def word? (s : List Char) : Option (Option (Literal × Nat)) := do
  match ← keyword? s with
  | some word => return some word
  | none => bare? s

def relations : List (List Char) :=
  [['!', '='], ['>', '='], ['<', '='], ['='], ['>'], ['<']]

/-- The number of bytes of the operator in front; 0 if there is none. -/
def operatorBytes (s : List Char) : Nat :=
  match relations.find? (·.isPrefixOf s) with
  | some operator => byteLength operator
  | none => (((bytes s).take 2).takeWhile isSymbolChar).length

def quoted? (text : List Char) (pos : Nat) :
    Option (Except ParseError (Option (Literal × Nat))) := do
  match ← peek? text pos with
  | some '\'' =>
    match ← quotedFrom? text (pos + Char.utf8Size '\'') [] with
    | some (read, next) => return .ok (some (.string (String.ofList read), next))
    | none => return .error (.unterminatedString pos)
  | _ => return .ok none

def value? (text : List Char) (pos : Nat) :
    Option (Except ParseError (Option Literal × Nat)) := do
  let pos ← skipBlanks? text pos
  let rest ← cutFrom? text pos
  match ← number? rest with
  | some (literal, n) => return .ok (some literal, ← skipBlanks? text (pos + n))
  | none =>
    match ← quoted? text pos with
    | .error error => return .error error
    | .ok (some (literal, next)) => return .ok (some literal, ← skipBlanks? text next)
    | .ok none =>
      match ← word? rest with
      | some (literal, n) => return .ok (some literal, ← skipBlanks? text (pos + n))
      | none => return .ok (none, pos)

/-- The comparison at a place, if one begins there, and the place behind it. -/
def comparison? (text : List Char) (pos : Nat) :
    Option (Except ParseError (Option (Comparison × Nat))) := do
  let rest ← cutFrom? text pos
  let n := ((bytes rest).takeWhile isFieldChar).length
  if n = 0 then return .ok none
  else
    let afterField ← cutFrom? rest n
    let afterGap := afterField.dropWhile isBlank
    let m := operatorBytes afterGap
    if m = 0 then return .ok none
    else
      let field ← cutTo? rest n
      let operator ← cutTo? afterGap m
      let gap ← sub? (byteLength afterField) (byteLength afterGap)
      match ← value? text (pos + (n + gap + m)) with
      | .error error => return .error error
      | .ok (some literal, next) =>
        return .ok (some (⟨String.ofList field, String.ofList operator, literal⟩, next))
      | .ok (none, next) => return .error (.missingValue (String.ofList field) next)

variable {text : List Char} {c : Cursor}

theorem peek?_of_within (h : c.Within text) : peek? text c.offset = some c.rest.head? := by
  rw [peek?, cutFrom?_of_within h]
  rfl

theorem skipBlanks?_of_stops {pos : Nat} {after : List Char}
    (h : cutFrom? text pos = some after) (hend : Stops isBlank after) :
    skipBlanks? text pos = some pos := by
  have hpeek : peek? text pos = some after.head? := by rw [peek?, h, Option.map_some]
  rw [skipBlanks?]
  cases after with
  | nil => split <;> simp_all
  | cons x s =>
    have hx : isBlank x = false := hend
    split <;> simp_all

theorem skipBlanks?_of_isBlank {pos : Nat} {x : Char} (h : peek? text pos = some (some x))
    (hx : isBlank x = true) : skipBlanks? text pos = skipBlanks? text (pos + 1) := by
  rw [skipBlanks?]
  split <;> simp_all

theorem skipBlanks?_of_within (h : c.Within text) :
    skipBlanks? text c.offset = some c.skipBlanks.offset := by
  obtain ⟨gap, after, hc, hgap, hend⟩ := exists_run_append isBlank c.rest
  rw [skipBlanks_eq_drop hc hgap hend]
  induction gap generalizing c with
  | nil =>
    rw [List.length_nil, drop_zero]
    exact skipBlanks?_of_stops (cutFrom?_of_within h) (by rwa [hc])
  | cons x gap ih =>
    obtain ⟨hx, hgap⟩ := (run_cons _ _ _).1 hgap
    have hstep := offset_drop_one hc
    rw [utf8Size_of_isAscii (narrow_isBlank x hx)] at hstep
    rw [skipBlanks?_of_isBlank (by rw [peek?_of_within h, hc]; rfl) hx, ← hstep,
      ih (h.drop 1) (rest_drop_one hc) hgap, drop_drop, List.length_cons, Nat.add_comm]

theorem quotedFrom?_of_plain {pos : Nat} {x : Char} (h : peek? text pos = some (some x))
    (hquote : x ≠ '\'') (hescape : x ≠ '\\') (read : List Char) :
    quotedFrom? text pos read = quotedFrom? text (pos + x.utf8Size) (read ++ [x]) := by
  rw [quotedFrom?]
  split <;> simp_all

theorem quotedFrom?_of_escaped {pos : Nat} {d : Char} (h : peek? text pos = some (some '\\'))
    (hd : peek? text (pos + Char.utf8Size '\\') = some (some d)) (read : List Char) :
    quotedFrom? text pos read =
      quotedFrom? text (pos + Char.utf8Size '\\' + d.utf8Size) (read ++ [d]) := by
  rw [quotedFrom?]
  split <;> simp_all
  split <;> simp_all

theorem quotedFrom?_of_escape {pos : Nat} (h : peek? text pos = some (some '\\'))
    (hend : peek? text (pos + Char.utf8Size '\\') = some none) (read : List Char) :
    quotedFrom? text pos read = some none := by
  rw [quotedFrom?]
  split <;> simp_all
  split <;> simp_all

theorem quotedFrom?_of_within (h : c.Within text) (read : List Char) :
    quotedFrom? text c.offset read = some ((quotedLength? c.rest).map fun n =>
      (read ++ unescape (c.rest.take n), (c.drop (n + 1)).offset)) := by
  generalize hs : c.rest = s
  have hpeek {c : Cursor} {s : List Char} (h : c.Within text) (hs : c.rest = s) :
      peek? text c.offset = some s.head? := hs ▸ peek?_of_within h
  fun_induction quotedLength? s generalizing c read with
  | case1 =>
    have hend := hpeek h hs
    rw [quotedFrom?]
    split <;> simp_all
  | case2 s =>
    have hquote := hpeek h hs
    have hstep := offset_drop_one hs
    rw [quotedFrom?]
    split <;> simp_all [unescape]
  | case3 =>
    have hend := hpeek (h.drop 1) (rest_drop_one hs)
    rw [offset_drop_one hs] at hend
    rw [quotedFrom?_of_escape (hpeek h hs) hend]
    rfl
  | case4 d s ih =>
    have hs' : (c.drop 1).rest = d :: s := rest_drop_one hs
    have hd := hpeek (h.drop 1) hs'
    have ih := ih ((h.drop 1).drop 1) (read ++ [d]) (rest_drop_one hs')
    rw [offset_drop_one hs] at hd
    rw [offset_drop_one hs', offset_drop_one hs] at ih
    rw [quotedFrom?_of_escaped (hpeek h hs) hd, ih]
    cases quotedLength? s with
    | none => rfl
    | some n => simp [unescape, Nat.add_comm, Nat.add_left_comm]
  | case5 x s hquote hlast hpair ih =>
    have hescape : x ≠ '\\' := by
      intro hx
      cases s with
      | nil => exact hlast hx rfl
      | cons d s => exact hpair d s hx rfl
    have ih := ih (h.drop 1) (read ++ [x]) (rest_drop_one hs)
    rw [offset_drop_one hs] at ih
    rw [quotedFrom?_of_plain (hpeek h hs) hquote hescape, ih]
    cases quotedLength? s with
    | none => rfl
    | some n => simp [unescape, hescape, Nat.add_comm]

theorem sliceFrom?_append (front after : List Char) :
    sliceFrom? (front ++ after) front.length = some after := by
  simp [sliceFrom?]

theorem exists_sign (s : List Char) : ∃ front rest, s = front ++ rest ∧ Run isAscii front ∧
    (if s.head? = some '-' then 1 else 0) = front.length := by
  by_cases hsign : s.head? = some '-'
  · obtain ⟨t, rfl⟩ := List.head?_eq_some_iff.1 hsign
    exact ⟨['-'], t, rfl, by simp only [run_cons, run_nil, and_true]; decide, rfl⟩
  · exact ⟨[], s, rfl, run_nil _, if_neg hsign⟩

theorem fractionDigits_of_ne {after : List Char} (h : after.head? ≠ some '.') :
    fractionDigits after = [] := by
  unfold fractionDigits
  split
  · exact absurd rfl h
  · rfl

theorem numberBytes?_eq (s : List Char) : numberBytes? s = some (numberLength s) := by
  obtain ⟨front, rest, hs, hfront, hsign⟩ := exists_sign s
  obtain ⟨digits, after, rfl, hdigits, hend⟩ := exists_run_append isDigit rest
  have hdrop : s.drop front.length = digits ++ after := by rw [hs, List.drop_left]
  have hbytes : bytes s = front ++ (digits ++ bytes after) := by
    rw [hs, bytes_append_of_run hfront, bytes_append_of_run (hdigits.isAscii narrow_isDigit)]
  have hsign' : (if (bytes s).head? = some '-' then 1 else 0) = front.length := by
    simpa only [head?_bytes_eq_some_iff (show isAscii '-' = true by decide)] using hsign
  have hwhole : countDigits (digits ++ bytes after) = digits.length := by
    rw [countDigits, takeWhile_run hdigits (stops_bytes narrow_isDigit hend)]
  have hslice : sliceFrom? (bytes s) front.length = some (digits ++ bytes after) := by
    rw [hbytes, sliceFrom?_append]
  have hpoint : (bytes s)[front.length + digits.length]? = some '.' ↔ after.head? = some '.' := by
    rw [hbytes, ← List.append_assoc, ← List.length_append,
      List.getElem?_append_right (Nat.le_refl _), Nat.sub_self, ← List.head?_eq_getElem?,
      head?_bytes_eq_some_iff (by decide)]
  simp only [numberBytes?, hsign', hslice, Option.bind_eq_bind, Option.bind_some, hwhole,
    Option.pure_def, numberLength_eq hsign hdrop hdigits hend, List.length_eq_zero_iff, hpoint]
  by_cases hsome : digits = []
  · rw [if_pos hsome, if_pos hsome]
  rw [if_neg hsome, if_neg hsome]
  by_cases hhead : after.head? = some '.'
  · obtain ⟨t, rfl⟩ := List.head?_eq_some_iff.1 hhead
    have hslice' : sliceFrom? (bytes s) (front.length + digits.length + 1) = some (bytes t) := by
      have hlength : front.length + digits.length + 1 = (front ++ digits ++ ['.']).length := by
        simp [Nat.add_assoc]
      have hpoint' : bytes ('.' :: t) = '.' :: bytes t := bytes_cons_ascii (by decide) t
      have hsplit : bytes s = front ++ digits ++ ['.'] ++ bytes t := by simp [hbytes, hpoint']
      rw [hsplit, hlength, sliceFrom?_append]
    simp only [if_pos hhead, hslice', Option.bind_some, countDigits,
      takeWhile_bytes narrow_isDigit, fractionDigits, List.length_eq_zero_iff]
  · rw [if_neg hhead, fractionDigits_of_ne hhead, if_pos rfl]

theorem readNumber?_eq (s : List Char) :
    readNumber? s = (numeral? (s.take (numberLength s))).map (·, numberLength s) := by
  simp only [readNumber?, numeral?]
  cases intOfText? (s.take (numberLength s)) with
  | none => cases Decimal.ofText? (s.take (numberLength s)) <;> rfl
  | some i =>
    simp only
    split <;> rfl

/-- The text of a number consists of ASCII characters. -/
theorem exists_numeral (s : List Char) :
    ∃ text after, s = text ++ after ∧ Run isAscii text ∧ text.length = numberLength s := by
  obtain ⟨front, rest, hs, hfront, hsign⟩ := exists_sign s
  obtain ⟨digits, after, rfl, hdigits, hend⟩ := exists_run_append isDigit rest
  have hdrop : s.drop front.length = digits ++ after := by rw [hs, List.drop_left]
  have hwhole : Run isAscii (front ++ digits) := by
    simpa [Run, or_imp, forall_and] using And.intro hfront (hdigits.isAscii narrow_isDigit)
  rw [numberLength_eq hsign hdrop hdigits hend]
  by_cases hsome : digits = []
  · exact ⟨[], s, rfl, run_nil _, by rw [if_pos hsome, List.length_nil]⟩
  rw [if_neg hsome]
  by_cases hfraction : fractionDigits after = []
  · rw [if_pos hfraction, ← List.length_append]
    exact ⟨front ++ digits, after, by simp [hs], hwhole, rfl⟩
  rw [if_neg hfraction]
  have hhead : after.head? = some '.' :=
    Decidable.byContradiction fun hne => hfraction (fractionDigits_of_ne hne)
  obtain ⟨t, rfl⟩ := List.head?_eq_some_iff.1 hhead
  obtain ⟨run, rest, rfl, hrun, hstop⟩ := exists_run_append isDigit t
  rw [fractionDigits_append hrun hstop]
  refine ⟨front ++ digits ++ '.' :: run, rest, by simp [hs], ?_, by simp; omega⟩
  have hrun' : Run isAscii ('.' :: run) :=
    (run_cons _ _ _).2 ⟨by decide, hrun.isAscii narrow_isDigit⟩
  intro x hx
  exact (List.mem_append.1 hx).elim (hwhole x) (hrun' x)

theorem cutTo?_numberLength (s : List Char) :
    cutTo? s (numberLength s) = some (s.take (numberLength s)) := by
  obtain ⟨text, after, hs, htext, hlength⟩ := exists_numeral s
  have htake : s.take text.length = text := by rw [hs, List.take_left]
  have hcut : cutTo? s text.length = some text := by rw [hs, cutTo?_of_run htext]
  rw [← hlength, htake, hcut]

theorem number?_eq (s : List Char) : number? s = some (readNumber? s) := by
  rw [number?, numberBytes?_eq, readNumber?_eq]
  by_cases hnone : numberLength s = 0
  · simp [hnone]
    rfl
  · simp [hnone, cutTo?_numberLength]

theorem mem_keywords_of_lookup {word : String} {literal : Literal}
    (h : keywords.lookup word = some literal) : (word, literal) ∈ keywords := by
  obtain ⟨front, after, hkeywords, -⟩ := List.lookup_eq_some_iff.1 h
  rw [hkeywords]
  exact List.mem_append_right front List.mem_cons_self

theorem literalOfWord_eq (word : List Char) : literalOfWord word =
    (keywords.lookup (String.ofList word)).getD (.string (String.ofList word)) := by
  cases h : keywords.lookup (String.ofList word) with
  | some literal => exact literalOfWord_of_mem (mem_keywords_of_lookup h)
  | none =>
    refine literalOfWord_of_not_mem fun literal hmem => ?_
    have hne := List.lookup_eq_none_iff.1 h _ hmem
    simp at hne

/-- No keyword begins with another character than a word does. -/
theorem lookup_eq_none {word : List Char} (h : word.head?.any startsWord = false) :
    keywords.lookup (String.ofList word) = none := by
  cases hlookup : keywords.lookup (String.ofList word) with
  | none => rfl
  | some literal =>
    obtain ⟨c, cs, rfl, hstart, -⟩ := startsWord_of_mem_keywords (mem_keywords_of_lookup hlookup)
    simp [hstart] at h

theorem wordBytes_eq (s : List Char) : wordBytes s = (s.takeWhile isWordChar).length := by
  rw [wordBytes, takeWhile_bytes narrow_isWordChar]

theorem cutTo?_wordBytes (s : List Char) :
    cutTo? s (wordBytes s) = some (s.takeWhile isWordChar) := by
  obtain ⟨word, after, rfl, hword, hend⟩ := exists_run_append isWordChar s
  rw [wordBytes_eq, takeWhile_run hword hend, cutTo?_of_run (hword.isAscii narrow_isWordChar)]

/-- The character in front of a word decides whether it is one. -/
theorem head?_takeWhile_isWordChar (s : List Char) :
    (s.takeWhile isWordChar).head?.any startsWord = s.head?.any startsWord := by
  cases s with
  | nil => rfl
  | cons c s =>
    by_cases hc : startsWord c = true
    · simp [(startsWord_classes hc).1, hc]
    · by_cases hword : isWordChar c = true <;> simp [hword, hc]

theorem word?_eq (s : List Char) : word? s = some (
    if s.head?.any startsWord then
      some (literalOfWord (s.takeWhile isWordChar), (s.takeWhile isWordChar).length)
    else none) := by
  have hkeyword : keyword? s = some ((keywords.lookup
      (String.ofList (s.takeWhile isWordChar))).map (·, (s.takeWhile isWordChar).length)) := by
    rw [keyword?, cutTo?_wordBytes, wordBytes_eq]
    rfl
  rw [word?, hkeyword]
  cases hlookup : keywords.lookup (String.ofList (s.takeWhile isWordChar)) with
  | some literal =>
    have hstart : s.head?.any startsWord = true := by
      apply Bool.of_not_eq_false
      rw [← head?_takeWhile_isWordChar]
      intro hstart
      rw [lookup_eq_none hstart] at hlookup
      cases hlookup
    simp [hstart, literalOfWord_eq, hlookup]
  | none =>
    cases hstart : s.head?.any startsWord with
    | false => simp [bare?, any_head?_bytes narrow_startsWord, hstart]
    | true =>
      have hascii := (run_takeWhile isWordChar s).isAscii narrow_isWordChar
      simp [bare?, any_head?_bytes narrow_startsWord, hstart, cutTo?_wordBytes, hlookup,
        literalOfWord_eq, byteLength_of_run hascii]

theorem operatorBytes_eq (s : List Char) : operatorBytes s = operatorLength s := by
  unfold operatorLength
  split
  · rfl
  · rfl
  · rfl
  · next t => cases t <;> rfl
  case h_5 t h | h_6 t h =>
    cases t with
    | nil => rfl
    | cons d t =>
      have hd : ('=' == d) = false := beq_false_of_ne fun hd => h t (by rw [← hd])
      simp [operatorBytes, relations, List.find?, List.isPrefixOf, hd]
      rfl
  · next h₁ h₂ h₃ h₄ h₅ h₆ =>
    have hnone : relations.find? (·.isPrefixOf s) = none := by
      simp only [relations, List.find?_eq_none, List.isPrefixOf_iff_prefix, List.mem_cons,
        List.not_mem_nil, or_false, forall_eq_or_imp, forall_eq]
      refine ⟨?_, ?_, ?_, ?_, ?_, ?_⟩
      all_goals rintro ⟨t, rfl⟩
      · exact h₁ t rfl
      · exact h₂ t rfl
      · exact h₃ t rfl
      · exact h₄ t rfl
      · exact h₅ t rfl
      · exact h₆ t rfl
    rw [operatorBytes, hnone]
    simp only [← List.take_takeWhile, takeWhile_bytes narrow_isSymbolChar]

theorem offset_drop_of_run {front after : List Char} (hc : c.rest = front ++ after)
    (h : Run isAscii front) : (c.drop front.length).offset = c.offset + front.length := by
  rw [offset_drop_length hc, byteLength_of_run h]

theorem quoted?_of_within (h : c.Within text) : quoted? text c.offset = some (
    if c.rest.head? = some '\'' then
      match quotedLength? (c.drop 1).rest with
      | none => .error (.unterminatedString c.offset)
      | some n => .ok (some (.string (String.ofList (unescape ((c.drop 1).rest.take n))),
          (c.drop (n + 2)).offset))
    else .ok none) := by
  rw [quoted?, peek?_of_within h]
  by_cases hquote : c.rest.head? = some '\''
  · obtain ⟨s, hs⟩ := List.head?_eq_some_iff.1 hquote
    have hread := quotedFrom?_of_within (h.drop 1) []
    rw [offset_drop_one hs] at hread
    rw [if_pos hquote, hquote]
    simp only [Option.bind_eq_bind, Option.bind_some, hread]
    cases quotedLength? (c.drop 1).rest with
    | none => rfl
    | some n => simp [show 1 + (n + 1) = n + 2 by omega]
  · rw [if_neg hquote]
    simp only [Option.bind_eq_bind, Option.bind_some]
    rfl

theorem readValue_of_ne {s : List Char} (hnumber : readNumber? s = none)
    (hquote : s.head? ≠ some '\'') : readValue s =
      if s.head?.any startsWord then
        .value (literalOfWord (s.takeWhile isWordChar)) (s.takeWhile isWordChar).length
      else .nothing := by
  cases s with
  | nil => simp [readValue, hnumber]
  | cons x s =>
    have hx : x ≠ '\'' := by simpa using hquote
    simp only [readValue, hnumber, if_neg hx, List.head?_cons, Option.any_some]
    rfl

theorem value?_of_within (h : c.Within text) : value? text c.offset = some (
    match readValue c.skipBlanks.rest with
    | .nothing => .ok (none, c.skipBlanks.offset)
    | .unterminated => .error (.unterminatedString c.skipBlanks.offset)
    | .value literal n => .ok (some literal, (c.skipBlanks.drop n).skipBlanks.offset)) := by
  have hwithin : c.skipBlanks.Within text := h.drop _
  rw [value?, skipBlanks?_of_within h]
  generalize c.skipBlanks = d at hwithin ⊢
  have hskip (n : Nat) : skipBlanks? text (d.drop n).offset = some (d.drop n).skipBlanks.offset :=
    skipBlanks?_of_within (hwithin.drop n)
  simp only [Option.bind_eq_bind, Option.bind_some, cutFrom?_of_within hwithin, number?_eq]
  cases hnumber : readNumber? d.rest with
  | some number =>
    obtain ⟨literal, n⟩ := number
    have hn : n = numberLength d.rest := by
      rw [readNumber?_eq] at hnumber
      obtain ⟨_, -, heq⟩ := Option.map_eq_some_iff.1 hnumber
      exact (Prod.mk.inj heq).2.symm
    obtain ⟨front, after, hrest, hfront, hlength⟩ := exists_numeral d.rest
    have hmove := offset_drop_of_run hrest hfront
    rw [hlength, ← hn] at hmove
    simp [readValue, hnumber, ← hmove, hskip]
  | none =>
    simp only [quoted?_of_within hwithin, Option.bind_some]
    by_cases hquote : d.rest.head? = some '\''
    · obtain ⟨s, hs⟩ := List.head?_eq_some_iff.1 hquote
      rw [if_pos hquote, hs, readValue_quote, rest_drop_one hs]
      cases quotedLength? s with
      | none => rfl
      | some n => simp [hskip]
    · rw [if_neg hquote, readValue_of_ne hnumber hquote]
      simp only [word?_eq, Option.bind_some]
      cases hstart : d.rest.head?.any startsWord with
      | false => rfl
      | true =>
        obtain ⟨word, after, hrest, hword, hend⟩ := exists_run_append isWordChar d.rest
        have hmove := offset_drop_of_run hrest (hword.isAscii narrow_isWordChar)
        simp [hrest, takeWhile_run hword hend, ← hmove, hskip]

theorem comparison?_of_within (h : c.Within text) : comparison? text c.offset = some (
    match readComparison c with
    | .nothing => .ok none
    | .fault error => .error error
    | .comparison k next => .ok (some (k, next.offset))) := by
  obtain ⟨field, after, hrest, hfield, hend⟩ := exists_run_append isFieldChar c.rest
  obtain ⟨gap, after, rfl, hgap, hend'⟩ := exists_run_append isBlank after
  have hascii := hfield.isAscii narrow_isFieldChar
  have hascii' := hgap.isAscii narrow_isBlank
  have hskip : (c.drop field.length).skipBlanks = c.drop (field.length + gap.length) := by
    rw [skipBlanks_eq_drop (rest_drop_length hrest) hgap hend', drop_drop]
  have hafter : (c.drop (field.length + gap.length)).rest = after := by
    rw [← List.length_append]
    exact rest_drop_length (by rw [hrest, List.append_assoc])
  have hoffset : (c.drop (field.length + gap.length)).offset =
      c.offset + (field.length + gap.length) := by
    rw [← drop_drop, offset_drop_of_run (rest_drop_length hrest) hascii',
      offset_drop_of_run hrest hascii, Nat.add_assoc]
  rw [comparison?, cutFrom?_of_within h]
  simp only [readComparison, hrest, takeWhile_bytes narrow_isFieldChar, takeWhile_run hfield hend,
    Option.bind_eq_bind, Option.bind_some, cutFrom?_of_run hascii, cutTo?_of_run hascii,
    dropWhile_run hgap hend', operatorBytes_eq, List.length_eq_zero_iff, hskip, hafter]
  by_cases hsome : field = []
  · simp [hsome]
  by_cases hnone : operatorLength after = 0
  · simp [hnone]
  obtain ⟨operator, after, rfl, hlength, hoperator⟩ := isOperator_of_operatorLength hnone
  have hoperator := hoperator.run.isAscii narrow_startsOperator
  have hgap' : sub? (byteLength (gap ++ (operator ++ after))) (byteLength (operator ++ after)) =
      some gap.length := by
    simp [sub?, byteLength_of_run hascii']
  have hmove := offset_drop_of_run hafter hoperator
  have hplace : c.offset + (field.length + gap.length + operator.length) =
      (c.drop (field.length + gap.length + operator.length)).offset := by
    rw [← drop_drop, hmove, hoffset, ← Nat.add_assoc c.offset]
  rw [← hlength] at hnone ⊢
  simp only [hsome, hnone, if_false, cutTo?_of_run hoperator, Option.bind_some, hgap',
    hplace, value?_of_within (h.drop _), decide_false, Bool.or_self, Bool.false_eq_true,
    List.take_left, drop_drop]
  cases readValue (c.drop (field.length + gap.length + operator.length)).skipBlanks.rest <;> rfl

end Sift.Checked

import Sift.Proofs.Grammar

/-!
# Operators are read as the grammar has them

A run of characters of one class is cut off at the first character outside it, and the
classes that meet in a comparison are apart: no operator begins with a character of a
field name or with a blank, and no value with a character of an operator. The length of
an operator is then the one that the grammar allows.
-/

namespace Sift.Grammar

open Sift.Text

@[simp] theorem run_nil (p : Char → Bool) : Run p [] := by simp [Run]

@[simp] theorem run_cons (p : Char → Bool) (c : Char) (s : List Char) :
    Run p (c :: s) ↔ p c = true ∧ Run p s := by simp [Run]

theorem run_append {p : Char → Bool} {s t : List Char} (hs : Run p s) (ht : Run p t) :
    Run p (s ++ t) := by
  intro c hc
  rcases List.mem_append.1 hc with h | h
  · exact hs c h
  · exact ht c h

theorem not_mem_of_run {p : Char → Bool} {s : List Char} {c : Char} (h : Run p s)
    (hc : p c = false) : c ∉ s :=
  fun hmem => Bool.false_ne_true (hc.symm.trans (h c hmem))

@[simp] theorem stops_nil (p : Char → Bool) : Stops p [] := trivial

@[simp] theorem stops_cons (p : Char → Bool) (c : Char) (s : List Char) :
    Stops p (c :: s) ↔ p c = false := Iff.rfl

theorem takeWhile_run {p : Char → Bool} {run after : List Char} (hrun : Run p run)
    (hstop : Stops p after) : (run ++ after).takeWhile p = run := by
  induction run with
  | nil => cases after with
    | nil => rfl
    | cons c s => simp [show p c = false from hstop]
  | cons c s ih =>
    obtain ⟨hc, hs⟩ := (run_cons p c s).1 hrun
    simp [hc, ih hs]

theorem dropWhile_run {p : Char → Bool} {run after : List Char} (hrun : Run p run)
    (hstop : Stops p after) : (run ++ after).dropWhile p = after := by
  have hsplit : (run ++ after).takeWhile p ++ (run ++ after).dropWhile p = run ++ after :=
    List.takeWhile_append_dropWhile
  rw [takeWhile_run hrun hstop] at hsplit
  exact List.append_cancel_left hsplit

theorem run_takeWhile (p : Char → Bool) (s : List Char) : Run p (s.takeWhile p) := by
  induction s with
  | nil => simp
  | cons c s ih => by_cases hc : p c = true <;> simp [hc, ih]

theorem stops_dropWhile (p : Char → Bool) (s : List Char) : Stops p (s.dropWhile p) := by
  induction s with
  | nil => exact trivial
  | cons c s ih =>
    by_cases hc : p c = true
    · simp [hc, ih]
    · simp [hc, Stops]

theorem stops_append {p : Char → Bool} {s t : List Char} (hs : s ≠ []) (h : Stops p s) :
    Stops p (s ++ t) := by
  obtain ⟨c, s, rfl⟩ := List.exists_cons_of_ne_nil hs
  exact h

theorem exists_run_append (p : Char → Bool) (s : List Char) :
    ∃ run after, s = run ++ after ∧ Run p run ∧ Stops p after :=
  ⟨_, _, List.takeWhile_append_dropWhile.symm, run_takeWhile p s, stops_dropWhile p s⟩

theorem splitWhere_run {separates : Char → Bool} {word : List Char}
    (h : Run (fun c => !separates c) word) : splitWhere separates word = [word] := by
  induction word with
  | nil => rfl
  | cons c word ih =>
    obtain ⟨hc, hword⟩ := (run_cons _ _ _).1 h
    rw [splitWhere, if_neg (by simpa using hc), ih hword]

theorem splitWhere_append {separates : Char → Bool} {word s : List Char} {c : Char}
    (h : Run (fun c => !separates c) word) (hc : separates c = true) :
    splitWhere separates (word ++ c :: s) = word :: splitWhere separates s := by
  induction word with
  | nil => rw [List.nil_append, splitWhere, if_pos hc]
  | cons d word ih =>
    obtain ⟨hd, hword⟩ := (run_cons _ _ _).1 h
    rw [List.cons_append, splitWhere, if_neg (by simpa using hd), ih hword]

/-- A property of each character of a list is decided along the list. -/
theorem forall_mem_of_all {p : Char → Prop} [DecidablePred p] {s : List Char}
    (h : s.all (fun c => decide (p c)) = true) : ∀ c ∈ s, p c :=
  fun c hc => of_decide_eq_true (List.all_eq_true.1 h c hc)

theorem trim_eq_self {s : List Char} (h : Stops isWhiteSpace s)
    (h' : Stops isWhiteSpace s.reverse) : trim s = s := by
  have hfront : s.dropWhile isWhiteSpace = s := dropWhile_run (run_nil _) h
  have hback : s.reverse.dropWhile isWhiteSpace = s.reverse := dropWhile_run (run_nil _) h'
  rw [trim, hfront, hback, List.reverse_reverse]

def startsOperator (c : Char) : Bool := isSymbolChar c || c ∈ ['=', '<', '>']

def startsValue (c : Char) : Bool := c ∈ ['-', '\''] || isDigit c || startsWord c

theorem startsOperator_classes {c : Char} (h : startsOperator c = true) :
    isFieldChar c = false ∧ isBlank c = false ∧ startsValue c = false := by
  have hall : ("!@#$%^*~\x60?".toList ++ ['=', '<', '>']).all
      (fun c => !isFieldChar c && !isBlank c && !startsValue c) = true := by decide
  have hmem : c ∈ "!@#$%^*~\x60?".toList ++ ['=', '<', '>'] := by
    simpa [startsOperator, isSymbolChar, or_assoc] using h
  simpa only [Bool.and_eq_true, Bool.not_eq_true', and_assoc] using List.all_eq_true.1 hall c hmem

/-- A property of the digits is decided one digit at a time. -/
theorem of_isDigit {P : Char → Prop} (hall : ∀ k ≤ 9, P (Char.ofNat (48 + k))) {c : Char}
    (h : isDigit c = true) : P c := by
  have h0 : ('0' : Char).val.toNat = 48 := rfl
  have h9 : ('9' : Char).val.toNat = 57 := rfl
  simp only [isDigit, Bool.and_eq_true, decide_eq_true_eq, Char.le_def, UInt32.le_iff_toNat_le,
    h0, h9] at h
  have hc : Char.ofNat (48 + (c.val.toNat - 48)) = c := by
    rw [Nat.add_sub_cancel' h.1]
    exact Char.ofNat_toNat c
  exact hc ▸ hall (c.val.toNat - 48) (by omega)

theorem ne_of_isSymbolChar {c : Char} (h : isSymbolChar c = true) :
    c ≠ '=' ∧ c ≠ '<' ∧ c ≠ '>' := by
  refine ⟨?_, ?_, ?_⟩
  all_goals
    rintro rfl
    exact absurd h (by decide)

theorem isBlank_classes {c : Char} (h : isBlank c = true) :
    isFieldChar c = false ∧ startsOperator c = false ∧ startsValue c = false := by
  have hall : [' ', '\t', '\n', '\x0c', '\r'].all
      (fun c => !isFieldChar c && !startsOperator c && !startsValue c) = true := by decide
  have hmem : c ∈ [' ', '\t', '\n', '\x0c', '\r'] := by simpa [isBlank, or_assoc] using h
  simpa only [Bool.and_eq_true, Bool.not_eq_true', and_assoc] using List.all_eq_true.1 hall c hmem

/-- The marks outside comparisons belong to no part of one. -/
theorem mark_classes {c : Char} (h : c ∈ ['(', ')', '\'', '&', '|']) :
    isFieldChar c = false ∧ isWordChar c = false ∧ isDigit c = false ∧ isBlank c = false ∧
      startsOperator c = false ∧ c ≠ '.' := by
  have hall : ['(', ')', '\'', '&', '|'].all (fun c => !isFieldChar c && !isWordChar c &&
      !isDigit c && !isBlank c && !startsOperator c && !decide (c = '.')) = true := by decide
  simpa only [Bool.and_eq_true, Bool.not_eq_true', decide_eq_false_iff_not, and_assoc] using
    List.all_eq_true.1 hall c h

theorem IsOperator.startsOperator {op after : List Char} (h : IsOperator op after) :
    ∃ c cs, op = c :: cs ∧ startsOperator c = true := by
  cases h with
  | symbol hc => exact ⟨_, _, rfl, by simp [Grammar.startsOperator, hc]⟩
  | symbols hc => exact ⟨_, _, rfl, by simp [Grammar.startsOperator, hc]⟩
  | _ => exact ⟨_, _, rfl, by decide⟩

theorem IsOperator.run {op after : List Char} (h : IsOperator op after) :
    Run Grammar.startsOperator op := by
  cases h with
  | symbol hc => simp [Grammar.startsOperator, hc]
  | symbols hc hd => simp [Grammar.startsOperator, hc, hd]
  | _ => simp only [run_cons, run_nil]; decide

theorem IsValue.startsValue {value after : List Char} {literal : Literal}
    (h : IsValue value after literal) : ∃ c cs, value = c :: cs ∧ startsValue c = true := by
  have hsigned : ∀ (negative : Bool) (digits rest : List Char), digits ≠ [] →
      Run isDigit digits → ∃ c cs, signed negative (digits ++ rest) = c :: cs ∧
        Grammar.startsValue c = true := by
    intro negative digits rest hsome hdigits
    cases negative with
    | true => exact ⟨_, _, rfl, by decide⟩
    | false =>
      obtain ⟨d, ds, rfl⟩ := List.exists_cons_of_ne_nil hsome
      exact ⟨d, ds ++ rest, rfl, by simp [Grammar.startsValue, ((run_cons _ _ _).1 hdigits).1]⟩
  cases h with
  | whole negative hsome hdigits => simpa using hsigned negative _ [] hsome hdigits
  | fraction negative hsome hdigits => exact hsigned negative _ _ hsome hdigits
  | quoted => exact ⟨_, _, rfl, by decide⟩
  | keyword h =>
    obtain ⟨h, -⟩ | ⟨h, -⟩ | ⟨h, -⟩ := by simpa [keywords] using h
    all_goals
      rw [← String.toList_inj, String.toList_ofList] at h
      exact ⟨_, _, h, by decide⟩
  | word hstart => exact ⟨_, _, rfl, by simp [Grammar.startsValue, hstart]⟩

theorem operatorLength_symbol {c : Char} {s : List Char} (hc : isSymbolChar c = true)
    (h : c = '!' → Stops (· = '=') s) :
    operatorLength (c :: s) = 1 + ((s.take 1).takeWhile isSymbolChar).length := by
  obtain ⟨h1, h2, h3⟩ := ne_of_isSymbolChar hc
  have hdefault : operatorLength (c :: s) =
      (((c :: s).take 2).takeWhile isSymbolChar).length := by
    unfold operatorLength
    split
    all_goals first | rfl | simp_all [Stops]
  rw [hdefault]
  simp [hc, Nat.add_comm]

theorem operatorLength_append {op after : List Char} (h : IsOperator op after) :
    operatorLength (op ++ after) = op.length := by
  cases h with
  | unequal => rfl
  | atLeast => rfl
  | atMost => rfl
  | equal => cases after <;> rfl
  | greater hend =>
    cases after with
    | nil => rfl
    | cons c s => simp_all [operatorLength, Stops]
  | less hend =>
    cases after with
    | nil => rfl
    | cons c s => simp_all [operatorLength, Stops]
  | @symbol c _ hc hend hunequal =>
    change operatorLength (c :: after) = 1
    rw [operatorLength_symbol hc hunequal]
    cases after with
    | nil => rfl
    | cons d s => simp [show isSymbolChar d = false from hend]
  | @symbols c d _ hc hd =>
    change operatorLength (c :: d :: after) = 2
    rw [operatorLength_symbol hc (fun _ => by simp [Stops, (ne_of_isSymbolChar hd).1])]
    simp [hd]

theorem operatorLength_eq_zero {c : Char} {s : List Char} (hc : startsOperator c = false) :
    operatorLength (c :: s) = 0 := by
  simp only [startsOperator, Bool.or_eq_false_iff, decide_eq_false_iff_not, List.mem_cons,
    List.not_mem_nil, or_false, not_or] at hc
  obtain ⟨hsymbol, hequal, hless, hgreater⟩ := hc
  have hne : c ≠ '!' := by rintro rfl; revert hsymbol; decide
  have hdefault : operatorLength (c :: s) =
      (((c :: s).take 2).takeWhile isSymbolChar).length := by
    unfold operatorLength
    split
    all_goals first | rfl | simp_all
  simp [hdefault, hsymbol]

/-- A comparison sign takes an equality sign that follows it. -/
theorem stops_equal_or_cons (s : List Char) :
    Stops (· = '=') s ∨ ∃ after, s = '=' :: after := by
  cases s with
  | nil => exact .inl trivial
  | cons c s =>
    by_cases hc : c = '='
    · exact .inr ⟨s, by rw [hc]⟩
    · exact .inl (by simpa [Stops] using hc)

theorem isOperator_of_operatorLength {s : List Char} (h : operatorLength s ≠ 0) :
    ∃ op after, s = op ++ after ∧ op.length = operatorLength s ∧ IsOperator op after := by
  suffices hop : ∃ op after, s = op ++ after ∧ IsOperator op after by
    obtain ⟨op, after, rfl, hop⟩ := hop
    exact ⟨op, after, rfl, (operatorLength_append hop).symm, hop⟩
  cases s with
  | nil => exact absurd rfl h
  | cons c s =>
    have hc : startsOperator c = true :=
      Bool.of_not_eq_false fun hc => h (operatorLength_eq_zero hc)
    simp only [startsOperator, Bool.or_eq_true, decide_eq_true_eq, List.mem_cons,
      List.not_mem_nil, or_false] at hc
    obtain hequal | ⟨after, rfl⟩ := stops_equal_or_cons s
    · obtain hc | rfl | rfl | rfl := hc
      · cases s with
        | nil => exact ⟨[c], [], rfl, .symbol hc trivial fun _ => hequal⟩
        | cons d s =>
          by_cases hd : isSymbolChar d = true
          · exact ⟨[c, d], s, rfl, .symbols hc hd⟩
          · exact ⟨[c], d :: s, rfl, .symbol hc (by simpa [Stops] using hd) fun _ => hequal⟩
      · exact ⟨_, s, rfl, .equal⟩
      · exact ⟨_, s, rfl, .less hequal⟩
      · exact ⟨_, s, rfl, .greater hequal⟩
    · obtain hc | rfl | rfl | rfl := hc
      · by_cases hunequal : c = '!'
        · exact ⟨['!', '='], after, by rw [hunequal]; rfl, .unequal⟩
        · exact ⟨[c], _, rfl, .symbol hc (by simp; decide) fun heq => absurd heq hunequal⟩
      · exact ⟨['='], _, rfl, .equal⟩
      · exact ⟨['<', '='], after, rfl, .atMost⟩
      · exact ⟨['>', '='], after, rfl, .atLeast⟩

end Sift.Grammar

import Sift.Proofs.Numerals
import Sift.Toml.Printer
import Sift.Toml.Reader

/-!
# Strings and keys are read back

A text is read back from each of the four forms that the printer may choose for it. What
can end a string too early is a quote, and a run of quotes in a long string; what can end
it too late is a quote right after it, which is excluded.
-/

namespace Sift.Toml

open Sift.Text Sift.Grammar

inductive Spells (c : Char) : List Char → Prop
  | short {e : Char} (h : simpleEscape? e = some c) : Spells c ['\\', e]
  | code {a b d e : Char} (h : codePoint? [a, b, d, e] = some c) : Spells c ['\\', 'u', a, b, d, e]
  | plain (htext : isTextChar c = true) (hslash : c ≠ '\\') (hquote : c ≠ '"') : Spells c [c]

theorem codePoint?_hexDigit {n : Nat} (h : n < 0x20 ∨ n = 0x7f) :
    codePoint? ['0', '0', hexDigit (n / 16), hexDigit (n % 16)] = some (Char.ofNat n) := by
  have hall : ∀ n < 0x80, n < 0x20 ∨ n = 0x7f →
      codePoint? ['0', '0', hexDigit (n / 16), hexDigit (n % 16)] = some (Char.ofNat n) := by decide
  exact hall n (by omega) h

theorem isTextChar_of_not_isControl {c : Char} (h : isControl c = false) : isTextChar c = true := by
  simp only [isControl, Bool.or_eq_false_iff, decide_eq_false_iff_not] at h
  simp only [isTextChar, Bool.or_eq_true, Bool.and_eq_true, decide_eq_true_eq]
  omega

theorem spells_escape {c : Char} (hquote : c ≠ '"') : Spells c (escape c) := by
  unfold escape
  split
  · next h => exact .short (by rw [h]; rfl)
  split
  · next h => exact .short (by rw [h]; rfl)
  split
  · next h => exact .short (by rw [h]; rfl)
  split
  · next h => exact .short (by rw [h]; rfl)
  split
  · next h => exact .short (by rw [h]; rfl)
  split
  · next h => exact .short (by rw [h]; rfl)
  next hslash =>
  split
  · next hcontrol =>
    have hpoint := codePoint?_hexDigit (n := c.toNat) (by simpa [isControl] using hcontrol)
    exact .code (by rw [hpoint, Char.ofNat_toNat])
  · next hcontrol =>
    exact .plain (isTextChar_of_not_isControl (Bool.eq_false_iff.2 hcontrol)) hslash hquote

theorem mem_of_simpleEscape? {e c : Char} (h : simpleEscape? e = some c) :
    e ∈ ['b', 't', 'n', 'f', 'r', '"', '\\'] := by
  unfold simpleEscape? at h
  split at h
  all_goals first | decide | cases h

theorem Spells.basicString_append {c : Char} {text : List Char} (h : Spells c text)
    (s : List Char) : basicString (text ++ s) = prepend (some c) (basicString s) := by
  cases h with
  | short h =>
    have hmem := mem_of_simpleEscape? h
    rw [← h]
    simp only [List.mem_cons, List.not_mem_nil, or_false] at hmem
    rcases hmem with rfl | rfl | rfl | rfl | rfl | rfl | rfl
    all_goals rfl
  | code h =>
    rw [← h]
    rfl
  | plain htext hslash hquote =>
    rw [List.singleton_append, basicString.eq_def]
    split <;> simp_all

theorem longBasicString_cons {c : Char} {s : List Char} (htext : isTextChar c = true ∨ c = '\n')
    (hslash : c ≠ '\\') (hquotes : ∀ t, c :: s ≠ '"' :: '"' :: '"' :: t) :
    longBasicString .none (c :: s) = prepend (some c) (longBasicString .none s) := by
  rw [longBasicString.eq_def]
  split
  case h_10 heq _ _ _ _ =>
    obtain ⟨rfl, rfl⟩ := List.cons.inj heq
    rw [if_pos (by simpa using htext)]
  all_goals simp_all

theorem Spells.longBasicString_append {c : Char} {text : List Char} (h : Spells c text)
    (s : List Char) :
    longBasicString .none (text ++ s) = prepend (some c) (longBasicString .none s) := by
  cases h with
  | short h =>
    have hmem := mem_of_simpleEscape? h
    rw [← h]
    simp only [List.mem_cons, List.not_mem_nil, or_false] at hmem
    rcases hmem with rfl | rfl | rfl | rfl | rfl | rfl | rfl
    all_goals rfl
  | code h =>
    rw [← h]
    rfl
  | plain htext hslash hquote =>
    exact longBasicString_cons (.inl htext) hslash fun t heq => hquote (List.cons.inj heq).1

theorem Spells.exists_cons {c : Char} {text : List Char} (h : Spells c text) :
    ∃ d t, text = d :: t ∧ d ≠ '"' ∧ d ≠ '\n' := by
  cases h with
  | short h => exact ⟨_, _, rfl, by decide, by decide⟩
  | code h => exact ⟨_, _, rfl, by decide, by decide⟩
  | plain htext hslash hquote =>
    exact ⟨_, _, rfl, hquote, fun hnewline => absurd htext (by rw [hnewline]; decide)⟩

@[simp] theorem prepend_some (c : Char) (text rest : List Char) :
    prepend (some c) (some (text, rest)) = some (c :: text, rest) := rfl

theorem basicText_quote (long : Bool) (quotes : Nat) (s : List Char) :
    basicText long quotes ('"' :: s) =
      if long && quotes < 2 then '"' :: basicText long (quotes + 1) s
      else '\\' :: '"' :: basicText long 0 s := by
  rw [basicText, if_pos rfl]

theorem basicText_short {c : Char} (h : c ≠ '"') (quotes : Nat) (s : List Char) :
    basicText false quotes (c :: s) = escape c ++ basicText false 0 s := by
  rw [basicText, if_neg h, Bool.and_false, if_neg Bool.false_ne_true]

theorem basicText_long {c : Char} (h : c ≠ '"') (quotes : Nat) (s : List Char) :
    basicText true quotes (c :: s) =
      (if c = '\n' then ['\n'] else escape c) ++ basicText true 0 s := by
  rw [basicText, if_neg h, Bool.and_true]
  by_cases hnewline : c = '\n'
  · rw [if_pos (decide_eq_true hnewline), if_pos hnewline, List.singleton_append]
  · rw [if_neg (by simpa using hnewline), if_neg hnewline]

theorem basicString_basicText (quotes : Nat) (s rest : List Char) :
    basicString (basicText false quotes s ++ '"' :: rest) = some (s, rest) := by
  induction s generalizing quotes with
  | nil => rfl
  | cons c s ih =>
    by_cases hquote : c = '"'
    · subst hquote
      rw [basicText_quote, Bool.false_and, if_neg Bool.false_ne_true]
      change prepend (some '"') (basicString (basicText false 0 s ++ '"' :: rest)) = _
      rw [ih, prepend_some]
    · rw [basicText_short hquote, List.append_assoc, (spells_escape hquote).basicString_append, ih,
        prepend_some]

theorem literalString_append {s : List Char} (htext : Run isTextChar s) (hquote : '\'' ∉ s)
    (rest : List Char) : literalString (s ++ '\'' :: rest) = some (s, rest) := by
  induction s with
  | nil => rfl
  | cons c s ih =>
    obtain ⟨hc, hs⟩ := (run_cons _ _ _).1 htext
    rw [List.mem_cons, not_or] at hquote
    rw [List.cons_append, literalString.eq_def]
    split
    · contradiction
    · next heq => exact absurd (List.cons.inj heq).1.symm hquote.1
    · next heq =>
      obtain ⟨rfl, rfl⟩ := List.cons.inj heq
      rw [if_pos hc, ih hs hquote.2, prepend_some]

/-- Up to two quotes in front of another character are part of the text, if two quotes can
only end it together with a third. -/
theorem read_quotes {read : List Char → Option (List Char × List Char)} {quote : Char}
    (hone : ∀ s, (∀ t, s ≠ quote :: quote :: t) →
      read (quote :: s) = prepend (some quote) (read s))
    {quotes : Nat} (hquotes : quotes ≤ 2) {d : Char} (hd : d ≠ quote) {s text rest : List Char}
    (h : read (d :: s) = some (text, rest)) :
    read (List.replicate quotes quote ++ d :: s) =
      some (List.replicate quotes quote ++ text, rest) := by
  have hsecond : ∀ t, d :: s ≠ quote :: quote :: t := fun t heq => hd (List.cons.inj heq).1
  have hfirst : ∀ t, quote :: d :: s ≠ quote :: quote :: t :=
    fun t heq => hd (List.cons.inj (List.cons.inj heq).2).1
  match quotes, hquotes with
  | 0, _ => exact h
  | 1, _ => exact (hone _ hsecond).trans (by rw [h]; rfl)
  | 2, _ => exact (hone _ hfirst).trans (by rw [hone _ hsecond, h]; rfl)

theorem replicate_append_closing {quote : Char} {quotes : Nat} (hquotes : quotes ≤ 2)
    (rest : List Char) : List.replicate quotes quote ++ quote :: quote :: quote :: rest =
      quote :: quote :: quote :: (List.replicate quotes quote ++ rest) := by
  match quotes, hquotes with
  | 0, _ => rfl
  | 1, _ => rfl
  | 2, _ => rfl

theorem longBasicString_quote (s : List Char) (hs : ∀ t, s ≠ '"' :: '"' :: t) :
    longBasicString .none ('"' :: s) = prepend (some '"') (longBasicString .none s) :=
  longBasicString_cons (.inl (by decide)) (by decide) fun t heq => hs t (List.cons.inj heq).2

theorem longLiteralString_cons {c : Char} {s : List Char} (htext : isTextChar c = true ∨ c = '\n')
    (hquotes : ∀ t, c :: s ≠ '\'' :: '\'' :: '\'' :: t) :
    longLiteralString (c :: s) = prepend (some c) (longLiteralString s) := by
  rw [longLiteralString.eq_def]
  split
  case h_3 heq =>
    obtain ⟨rfl, rfl⟩ := List.cons.inj heq
    rw [if_pos (by simpa using htext)]
  all_goals simp_all

theorem longLiteralString_quote (s : List Char) (hs : ∀ t, s ≠ '\'' :: '\'' :: t) :
    longLiteralString ('\'' :: s) = prepend (some '\'') (longLiteralString s) :=
  longLiteralString_cons (.inl (by decide)) fun t heq => hs t (List.cons.inj heq).2

theorem closingQuotes_replicate {quote : Char} {quotes : Nat} (hquotes : quotes ≤ 2)
    {rest : List Char} (hrest : Stops (· = quote) rest) :
    closingQuotes quote (List.replicate quotes quote ++ rest) =
      (List.replicate quotes quote, rest) := by
  match quotes, hquotes with
  | 0, _ =>
    match rest, hrest with
    | [], _ => rfl
    | [a], ha => simp [closingQuotes, of_decide_eq_false ha]
    | a :: b :: s, ha => simp [closingQuotes, of_decide_eq_false ha]
  | 1, _ =>
    match rest, hrest with
    | [], _ => simp [closingQuotes]
    | a :: s, ha => simp [closingQuotes, of_decide_eq_false ha]
  | 2, _ => simp [closingQuotes]

theorem longBasicString_basicText {quotes : Nat} (hquotes : quotes ≤ 2) (s : List Char)
    {rest : List Char} (hrest : Stops (· = '"') rest) :
    longBasicString .none
        (List.replicate quotes '"' ++ (basicText true quotes s ++ '"' :: '"' :: '"' :: rest)) =
      some (List.replicate quotes '"' ++ s, rest) := by
  induction s generalizing quotes with
  | nil =>
    rw [basicText, List.nil_append, replicate_append_closing hquotes, List.append_nil,
      ← closingQuotes_replicate hquotes hrest]
    rfl
  | cons c s ih =>
    by_cases hquote : c = '"'
    · subst hquote
      by_cases hfew : quotes < 2
      · have hnext := @ih (quotes + 1) hfew
        rw [basicText_quote, Bool.true_and, if_pos (decide_eq_true hfew)]
        rwa [List.replicate_succ', List.append_assoc, List.append_assoc] at hnext
      · rw [basicText_quote, Bool.true_and, if_neg (by simpa using hfew)]
        refine read_quotes longBasicString_quote hquotes (d := '\\') (by decide) ?_
        change prepend (some '"') (longBasicString .none
          (basicText true 0 s ++ '"' :: '"' :: '"' :: rest)) = _
        have hnext := @ih 0 (Nat.zero_le 2)
        rw [List.replicate_zero, List.nil_append, List.nil_append] at hnext
        rw [hnext, prepend_some]
    · have hnext := @ih 0 (Nat.zero_le 2)
      rw [List.replicate_zero, List.nil_append, List.nil_append] at hnext
      rw [basicText_long hquote, List.append_assoc]
      by_cases hnewline : c = '\n'
      · rw [if_pos hnewline, hnewline, List.singleton_append]
        refine read_quotes longBasicString_quote hquotes (by decide) ?_
        rw [longBasicString_cons (.inr rfl) (by decide) (by simp), hnext, prepend_some]
      · obtain ⟨d, t, htext, hd, -⟩ := (spells_escape hquote).exists_cons
        have hread := (spells_escape hquote).longBasicString_append
          (basicText true 0 s ++ '"' :: '"' :: '"' :: rest)
        rw [hnext, prepend_some] at hread
        rw [if_neg hnewline, htext, List.cons_append]
        rw [htext, List.cons_append] at hread
        exact read_quotes longBasicString_quote hquotes hd hread

theorem le_longestRun (quote : Char) (run : Nat) (s : List Char) :
    run ≤ longestRun quote run s := by
  induction s generalizing run with
  | nil => exact Nat.le_refl run
  | cons c s ih =>
    rw [longestRun]
    split
    · exact Nat.le_trans (Nat.le_succ run) (ih (run + 1))
    · exact Nat.le_max_left _ _

theorem longLiteralString_append {quotes : Nat} {s : List Char}
    (htext : ∀ c ∈ s, isTextChar c = true ∨ c = '\n') (hruns : longestRun '\'' quotes s ≤ 2)
    {rest : List Char} (hrest : Stops (· = '\'') rest) :
    longLiteralString
        (List.replicate quotes '\'' ++ (s ++ '\'' :: '\'' :: '\'' :: rest)) =
      some (List.replicate quotes '\'' ++ s, rest) := by
  have hquotes := Nat.le_trans (le_longestRun _ _ _) hruns
  induction s generalizing quotes with
  | nil =>
    rw [List.nil_append, replicate_append_closing hquotes, List.append_nil,
      ← closingQuotes_replicate hquotes hrest]
    rfl
  | cons c s ih =>
    obtain ⟨hc, hs⟩ := List.forall_mem_cons.1 htext
    rw [longestRun] at hruns
    split at hruns
    · next hquote =>
      have hnext := ih hs hruns (Nat.le_trans (le_longestRun _ _ _) hruns)
      rw [List.replicate_succ', List.append_assoc, List.append_assoc] at hnext
      rwa [hquote]
    · next hquote =>
      have hruns' := Nat.le_trans (Nat.le_max_right _ _) hruns
      have hnext := ih hs hruns' (Nat.le_trans (le_longestRun _ _ _) hruns')
      refine read_quotes longLiteralString_quote hquotes hquote ?_
      rw [longLiteralString_cons hc fun t heq => hquote (List.cons.inj heq).1]
      exact congrArg (prepend (some c)) hnext

def isQuote (c : Char) : Bool := c = '"' || c = '\''

theorem stops_of_stops_isQuote {s : List Char} (h : Stops isQuote s) :
    Stops (· = '"') s ∧ Stops (· = '\'') s := by
  cases s with
  | nil => exact ⟨trivial, trivial⟩
  | cons c s => exact Bool.or_eq_false_iff.1 h

theorem textChar_of_not_needsEscape {c : Char} (h : needsEscape c = false) :
    isTextChar c = true ∨ c = '\n' := by
  by_cases hcontrol : isControl c = true
  · simp only [needsEscape, hcontrol, Bool.true_and, Bool.and_eq_false_iff, decide_eq_false_iff_not,
      Decidable.not_not] at h
    exact h.imp (fun htab => by rw [htab]; decide) id
  · exact .inl (isTextChar_of_not_isControl (Bool.eq_false_iff.2 hcontrol))

namespace StringForm

theorem text_of_holds {form : StringForm} {s : List Char} (h : form.holds s = true) :
    ∀ c ∈ s, needsEscape c = false := by
  unfold holds at h
  rw [Bool.and_eq_true, Bool.not_eq_true', List.any_eq_false] at h
  exact fun c hc => Bool.eq_false_iff.2 (h.1 c hc)

theorem textChar_of_holds {form : StringForm} {s : List Char} (h : form.holds s = true) :
    ∀ c ∈ s, isTextChar c = true ∨ c = '\n' :=
  fun c hc => textChar_of_not_needsEscape (text_of_holds h c hc)

theorem run_of_holds_literal {s : List Char} (h : literal.holds s = true) :
    Run isTextChar s ∧ '\'' ∉ s := by
  have htext := textChar_of_holds h
  simp only [holds, Bool.and_eq_true, Bool.not_eq_true', List.contains_eq_mem,
    decide_eq_false_iff_not] at h
  exact ⟨fun c hc => (htext c hc).resolve_right fun hnewline => h.2.2 (hnewline ▸ hc), h.2.1⟩

end StringForm

theorem string?_basic {s : List Char} (h : ∀ t, s ≠ '"' :: '"' :: t) :
    string? ('"' :: s) = basicString s := by
  rw [string?.eq_def]
  split <;> simp_all

theorem string?_literal {s : List Char} (h : ∀ t, s ≠ '\'' :: '\'' :: t) :
    string? ('\'' :: s) = literalString s := by
  rw [string?.eq_def]
  split <;> simp_all

theorem dropNewline_afterOpening (s t : List Char)
    (h : ∀ c u, t = c :: u → c = '\n' → '\n' ∈ s) :
    dropNewline (afterOpening s ++ t) = t := by
  rw [afterOpening]
  split
  · rfl
  · next hnone =>
    rw [List.nil_append]
    unfold dropNewline
    split
    · next u => exact absurd (h _ u rfl rfl) (by simpa using hnone)
    · rfl

theorem basicText_ne_closing (s : List Char) {rest : List Char} (hrest : Stops (· = '"') rest)
    (t : List Char) : basicText false 0 s ++ '"' :: rest ≠ '"' :: '"' :: t := by
  intro heq
  cases s with
  | nil =>
    rw [basicText, List.nil_append] at heq
    rw [(List.cons.inj heq).2] at hrest
    exact absurd hrest (by rw [stops_cons]; decide)
  | cons c s =>
    by_cases hquote : c = '"'
    · rw [hquote, basicText_quote] at heq
      exact absurd (List.cons.inj heq).1 (by decide)
    · obtain ⟨d, u, htext, hd, -⟩ := (spells_escape hquote).exists_cons
      rw [basicText_short hquote, htext] at heq
      exact hd (List.cons.inj heq).1

theorem basicText_head {s : List Char} {c : Char} {t rest : List Char}
    (h : basicText true 0 s ++ '"' :: rest = c :: t) (hc : c = '\n') : '\n' ∈ s := by
  subst hc
  cases s with
  | nil => exact absurd (List.cons.inj h).1 (by decide)
  | cons d s =>
    by_cases hquote : d = '"'
    · rw [hquote, basicText_quote] at h
      exact absurd (List.cons.inj h).1 (by decide)
    · rw [basicText_long hquote] at h
      by_cases hnewline : d = '\n'
      · exact List.mem_cons.2 (.inl hnewline.symm)
      · obtain ⟨e, u, htext, -, he⟩ := (spells_escape hquote).exists_cons
        rw [if_neg hnewline, htext] at h
        exact absurd (List.cons.inj h).1 he

theorem string?_write_basic (s : List Char) {rest : List Char} (hdouble : Stops (· = '"') rest) :
    string? (StringForm.basic.write s ++ rest) = some (s, rest) := by
  rw [StringForm.write, List.append_assoc]
  exact (string?_basic (basicText_ne_closing s hdouble)).trans (basicString_basicText 0 s rest)

theorem string?_write_longBasic (s : List Char) {rest : List Char}
    (hdouble : Stops (· = '"') rest) :
    string? (StringForm.longBasic.write s ++ rest) = some (s, rest) := by
  have htext : dropNewline (afterOpening s ++ (basicText true 0 s ++ '"' :: '"' :: '"' :: rest)) =
      basicText true 0 s ++ '"' :: '"' :: '"' :: rest :=
    dropNewline_afterOpening _ _ fun c u heq hc => basicText_head heq hc
  have hread := longBasicString_basicText (Nat.zero_le 2) s hdouble
  rw [List.replicate_zero, List.nil_append, List.nil_append, ← htext] at hread
  simp only [StringForm.write, List.append_assoc]
  exact hread

theorem string?_write_literal {s rest : List Char} (h : StringForm.literal.holds s = true)
    (hsingle : Stops (· = '\'') rest) :
    string? (StringForm.literal.write s ++ rest) = some (s, rest) := by
  obtain ⟨htext, hquote⟩ := StringForm.run_of_holds_literal h
  rw [StringForm.write, List.append_assoc]
  refine (string?_literal fun t heq => ?_).trans (literalString_append htext hquote rest)
  cases s with
  | nil =>
    have hquotes : rest = '\'' :: t := (List.cons.inj heq).2
    rw [hquotes, stops_cons] at hsingle
    exact absurd hsingle (by decide)
  | cons c s => exact hquote (List.mem_cons.2 (.inl (List.cons.inj heq).1.symm))

theorem string?_write_longLiteral {s rest : List Char} (h : StringForm.longLiteral.holds s = true)
    (hsingle : Stops (· = '\'') rest) :
    string? (StringForm.longLiteral.write s ++ rest) = some (s, rest) := by
  have hruns : longestRun '\'' 0 s ≤ 2 := by
    unfold StringForm.holds at h
    rw [Bool.and_eq_true] at h
    exact of_decide_eq_true h.2
  have htext : dropNewline (afterOpening s ++ (s ++ '\'' :: '\'' :: '\'' :: rest)) =
      s ++ '\'' :: '\'' :: '\'' :: rest := by
    refine dropNewline_afterOpening _ _ fun c u heq hc => ?_
    cases s with
    | nil => exact absurd ((List.cons.inj heq).1.trans hc) (by decide)
    | cons d s => exact List.mem_cons.2 (.inl ((List.cons.inj heq).1.trans hc).symm)
  have hread := longLiteralString_append (StringForm.textChar_of_holds h) hruns hsingle
  rw [List.replicate_zero, List.nil_append, List.nil_append, ← htext] at hread
  simp only [StringForm.write, List.append_assoc]
  exact hread

theorem string?_stringText (s : List Char) {rest : List Char} (hrest : Stops isQuote rest) :
    string? (stringText s ++ rest) = some (s, rest) := by
  obtain ⟨hdouble, hsingle⟩ := stops_of_stops_isQuote hrest
  rw [stringText, StringForm.ofText]
  split
  · next form hfound =>
    have hholds := List.find?_some hfound
    cases form with
    | basic => exact string?_write_basic s hdouble
    | longBasic => exact string?_write_longBasic s hdouble
    | literal => exact string?_write_literal hholds hsingle
    | longLiteral => exact string?_write_longLiteral hholds hsingle
  · split
    · exact string?_write_longBasic s hdouble
    · exact string?_write_basic s hdouble

def isMark (c : Char) : Bool :=
  c ∈ [' ', '\t', '\n', '\r', '#', ',', '=', '[', ']', '\x7b', '\x7d', '"', '\'', '\uFEFF']

theorem isMark_of_isRunChar {c : Char} (h : isRunChar c = true) : isMark c = false := by
  have hall : ∀ c ∈ [' ', '\t', '\n', '\r', '#', ',', '=', '[', ']', '\x7b', '\x7d', '"', '\'',
      '\uFEFF'], isRunChar c = false :=
    forall_mem_of_all (by decide)
  cases hmark : isMark c with
  | false => rfl
  | true =>
    rw [hall c (of_decide_eq_true hmark)] at h
    exact absurd h Bool.false_ne_true

theorem isRunChar_of_isBareChar {c : Char} (h : isBareChar c = true) : isRunChar c = true := by
  simp only [isBareChar, Bool.or_eq_true, decide_eq_true_eq] at h
  simp only [isRunChar, Bool.or_eq_true, decide_eq_true_eq]
  rcases h with ((h | h) | h) | h
  all_goals simp [h]

theorem isMark_of_isBareChar {c : Char} (h : isBareChar c = true) : isMark c = false :=
  isMark_of_isRunChar (isRunChar_of_isBareChar h)

theorem ne_of_isMark {c d : Char} (hc : isMark c = false) (hd : isMark d = true) : c ≠ d := by
  rintro rfl
  exact Bool.false_ne_true (hc.symm.trans hd)

theorem simpleKey?_bare {key rest : List Char} (hsome : key ≠ []) (hkey : Run isBareChar key)
    (hrest : Stops isBareChar rest) : simpleKey? (key ++ rest) = some (key, rest) := by
  obtain ⟨c, cs, rfl⟩ := List.exists_cons_of_ne_nil hsome
  have hmark := isMark_of_isBareChar ((run_cons _ _ _).1 hkey).1
  rw [simpleKey?.eq_def]
  split
  · next heq => exact absurd (List.cons.inj heq).1 (ne_of_isMark hmark (by decide))
  · next heq => exact absurd (List.cons.inj heq).1 (ne_of_isMark hmark (by decide))
  · rw [takeWhile_run hkey hrest, dropWhile_run hkey hrest, if_neg hsome]

theorem simpleKey?_keyText (key : List Char) {rest : List Char} (hrest : Stops isBareChar rest) :
    simpleKey? (keyText key ++ rest) = some (key, rest) := by
  have hbasic : simpleKey? (StringForm.basic.write key ++ rest) = some (key, rest) := by
    rw [StringForm.write, List.append_assoc]
    exact basicString_basicText 0 key rest
  rw [keyText]
  split
  · next hbare =>
    rw [Bool.and_eq_true, decide_eq_true_eq] at hbare
    exact simpleKey?_bare hbare.1 (List.all_eq_true.1 hbare.2) hrest
  · split
    · next form hfound =>
      have hholds := List.find?_some hfound
      have hmem := List.mem_of_find?_eq_some hfound
      simp only [List.mem_cons, List.not_mem_nil, or_false] at hmem
      rcases hmem with rfl | rfl
      · exact hbasic
      · obtain ⟨htext, hquote⟩ := StringForm.run_of_holds_literal hholds
        rw [StringForm.write, List.append_assoc]
        exact literalString_append htext hquote rest
    · exact hbasic

theorem StringForm.write_head (form : StringForm) (s : List Char) :
    ∃ c t, form.write s = c :: t ∧ isQuote c = true := by
  cases form with
  | basic => exact ⟨_, _, rfl, rfl⟩
  | literal => exact ⟨_, _, rfl, rfl⟩
  | longBasic => exact ⟨_, _, rfl, rfl⟩
  | longLiteral => exact ⟨_, _, rfl, rfl⟩

theorem keyText_head (key : List Char) :
    ∃ c t, keyText key = c :: t ∧ (isBareChar c = true ∨ isQuote c = true) := by
  rw [keyText]
  split
  · next hbare =>
    rw [Bool.and_eq_true, decide_eq_true_eq] at hbare
    obtain ⟨c, cs, rfl⟩ := List.exists_cons_of_ne_nil hbare.1
    exact ⟨c, cs, rfl, .inl (List.all_eq_true.1 hbare.2 c (List.mem_cons_self ..))⟩
  · split
    · next form _ =>
      obtain ⟨c, t, htext, hc⟩ := form.write_head key
      exact ⟨c, t, htext, .inr hc⟩
    · obtain ⟨c, t, htext, hc⟩ := StringForm.basic.write_head key
      exact ⟨c, t, htext, .inr hc⟩

/-- What a reader took and left, apart from the proof that it took something. -/
def taken {α : Type} {s : List Char} (result : Option (α × Rest s)) : Option (α × List Char) :=
  result.map fun r => (r.1, r.2.1)

theorem taken_eq_some {α : Type} {s : List Char} {result : Option (α × Rest s)} {a : α}
    {rest : List Char} (h : taken result = some (a, rest)) :
    ∃ hlength, result = some (a, ⟨rest, hlength⟩) := by
  obtain ⟨⟨b, r, hlength⟩, hresult, heq⟩ := Option.map_eq_some_iff.1 h
  cases heq
  exact ⟨hlength, hresult⟩

theorem taken_eq_none {α : Type} {s : List Char} {result : Option (α × Rest s)}
    (h : taken result = none) : result = none := Option.map_eq_none_iff.1 h

theorem Rest.of?_eq {s r : List Char} (h : r.length < s.length) : Rest.of? s r = some ⟨r, h⟩ :=
  dif_pos h

theorem skipSpaces_of_stops {s : List Char} (h : Stops isSpace s) : skipSpaces s = s :=
  dropWhile_run (run_nil _) h

theorem keyText_classes (key : List Char) (s : List Char) :
    ∃ c t, keyText key ++ s = c :: t ∧ isSpace c = false ∧ c ≠ '[' ∧ c ≠ '\n' ∧ c ≠ '#' ∧
      c ≠ '\uFEFF' ∧ c ≠ '\x7d' := by
  obtain ⟨c, t, htext, hc⟩ := keyText_head key
  refine ⟨c, t ++ s, by rw [htext, List.cons_append], ?_⟩
  rcases hc with hc | hc
  · have hmark := isMark_of_isBareChar hc
    have hne (d : Char) (hd : isMark d = true) : c ≠ d := ne_of_isMark hmark hd
    exact ⟨by simp [isSpace, hne ' ' (by decide), hne '\t' (by decide)], hne _ (by decide),
      hne _ (by decide), hne _ (by decide), hne _ (by decide), hne _ (by decide)⟩
  · have hall : ∀ c ∈ ['"', '\''], isSpace c = false ∧ c ≠ '[' ∧ c ≠ '\n' ∧ c ≠ '#' ∧
        c ≠ '\uFEFF' ∧ c ≠ '\x7d' :=
      forall_mem_of_all (by decide)
    exact hall c (by simpa [isQuote] using hc)

theorem length_lt_keyText (key s : List Char) : s.length < (keyText key ++ s).length := by
  obtain ⟨c, t, htext, -⟩ := keyText_classes key []
  rw [List.append_nil] at htext
  rw [htext, List.length_append, List.length_cons]
  omega

theorem taken_keyParts_last {key : String} {s rest : List Char}
    (hs : skipSpaces s = keyText key.toList ++ rest) (hrest : Stops isBareChar rest)
    (hpoint : Stops (· = '.') (skipSpaces rest)) :
    taken (keyParts s) = some ([key], skipSpaces rest) := by
  have hlength : (skipSpaces rest).length < s.length := by
    have hspaces := length_skipSpaces_le s
    rw [hs] at hspaces
    exact Nat.lt_of_le_of_lt (length_skipSpaces_le rest)
      (Nat.lt_of_lt_of_le (length_lt_keyText _ _) hspaces)
  rw [keyParts, hs, simpleKey?_keyText key.toList hrest]
  simp only [String.ofList_toList]
  split
  · next heq =>
    rw [heq, stops_cons] at hpoint
    exact absurd hpoint (by decide)
  · rw [Rest.of?_eq hlength]
    rfl

theorem taken_keyParts_point {key : String} {s next rest : List Char} {path : List String}
    (hs : skipSpaces s = keyText key.toList ++ '.' :: next)
    (h : taken (keyParts next) = some (path, rest)) :
    taken (keyParts s) = some (key :: path, rest) := by
  obtain ⟨hlength, hread⟩ := taken_eq_some h
  have hpoint : skipSpaces ('.' :: next) = '.' :: next :=
    skipSpaces_of_stops (by rw [stops_cons]; rfl)
  have hlength' : next.length < s.length := by
    have hspaces := length_skipSpaces_le s
    rw [hs] at hspaces
    exact Nat.lt_trans (Nat.lt_succ_self _)
      (Nat.lt_of_lt_of_le (length_lt_keyText key.toList ('.' :: next)) hspaces)
  rw [keyParts, hs, simpleKey?_keyText key.toList (by rw [stops_cons]; rfl)]
  simp only [String.ofList_toList, hpoint, hread, dif_pos hlength']
  rfl

theorem pathText_single (key : String) : pathText [key] = keyText key.toList := by
  simp [pathText, List.intercalate]

theorem pathText_cons (key next : String) (path : List String) :
    pathText (key :: next :: path) = keyText key.toList ++ '.' :: pathText (next :: path) := by
  simp [pathText, List.intercalate]

theorem pathText_classes {path : List String} (hpath : path ≠ []) (s : List Char) :
    ∃ c t, pathText path ++ s = c :: t ∧ isSpace c = false ∧ c ≠ '[' ∧ c ≠ '\n' ∧ c ≠ '#' ∧
      c ≠ '\uFEFF' ∧ c ≠ '\x7d' := by
  match path, hpath with
  | [key], _ =>
    rw [pathText_single]
    exact keyText_classes key.toList s
  | key :: next :: path, _ =>
    rw [pathText_cons, List.append_assoc]
    exact keyText_classes key.toList _

theorem skipSpaces_pathText {path : List String} (hpath : path ≠ []) (s : List Char) :
    skipSpaces (pathText path ++ s) = pathText path ++ s := by
  obtain ⟨c, t, htext, hc, -⟩ := pathText_classes hpath s
  rw [htext]
  exact skipSpaces_of_stops hc

/-- A path is read up to what follows it, which begins with no character of a key. -/
theorem taken_keyParts {path : List String} (hpath : path ≠ []) {s rest : List Char}
    (hs : skipSpaces s = pathText path ++ rest) (hrest : Stops isBareChar rest)
    (hpoint : Stops (· = '.') (skipSpaces rest)) :
    taken (keyParts s) = some (path, skipSpaces rest) := by
  match path, hpath with
  | [key], _ =>
    rw [pathText_single] at hs
    exact taken_keyParts_last hs hrest hpoint
  | key :: next :: path, _ =>
    rw [pathText_cons, List.append_assoc, List.cons_append] at hs
    exact taken_keyParts_point hs (taken_keyParts (List.cons_ne_nil next path)
      (skipSpaces_pathText (List.cons_ne_nil next path) rest) hrest hpoint)

theorem taken_keyPath {path : List String} (hpath : path ≠ []) {s rest : List Char}
    (hs : skipSpaces s = pathText path ++ rest) (hrest : Stops isBareChar rest)
    (hpoint : Stops (· = '.') (skipSpaces rest)) :
    taken (keyPath s) =
      if path.length < nestingLimit then some (path, skipSpaces rest) else none := by
  obtain ⟨hlength, hread⟩ := taken_eq_some (taken_keyParts hpath hs hrest hpoint)
  rw [keyPath, hread]
  dsimp only
  split
  · rfl
  · rfl

def isPrinted (c : Char) : Bool := c ≠ '\r'

theorem run_of_all {p : Char → Bool} {s : List Char} (h : s.all p = true) : Run p s :=
  List.all_eq_true.1 h

theorem isPrinted_of_isRunChar {c : Char} (h : isRunChar c = true) : isPrinted c = true :=
  decide_eq_true (ne_of_isMark (isMark_of_isRunChar h) (by decide))

theorem isPrinted_of_isTextChar {c : Char} (h : isTextChar c = true) : isPrinted c = true := by
  refine decide_eq_true fun hreturn => ?_
  rw [hreturn] at h
  exact absurd h (by decide)

theorem Spells.run_isPrinted {c : Char} {text : List Char} (h : Spells c text) :
    Run isPrinted text := by
  cases h with
  | short h =>
    have hall : ∀ e ∈ ['b', 't', 'n', 'f', 'r', '"', '\\'], isPrinted e = true :=
      forall_mem_of_all (by decide)
    have hmem := mem_of_simpleEscape? h
    exact (run_cons _ _ _).2 ⟨by decide, (run_cons _ _ _).2 ⟨hall _ hmem, run_nil _⟩⟩
  | @code a b d e h =>
    have hhex : Run isHexDigit [a, b, d, e] := by
      simp only [codePoint?, Option.ite_none_right_eq_some] at h
      exact List.all_eq_true.1 h.1.1
    have hprinted : Run isPrinted [a, b, d, e] := by
      intro x hx
      refine decide_eq_true fun hreturn => ?_
      rw [hreturn] at hx
      exact absurd (hhex _ hx) (by decide)
    exact (run_cons _ _ _).2 ⟨by decide, (run_cons _ _ _).2 ⟨by decide, hprinted⟩⟩
  | plain htext hslash hquote =>
    exact (run_cons _ _ _).2 ⟨isPrinted_of_isTextChar htext, run_nil _⟩

theorem run_isPrinted_basicText (long : Bool) (quotes : Nat) (s : List Char) :
    Run isPrinted (basicText long quotes s) := by
  induction s generalizing quotes with
  | nil => exact run_nil _
  | cons c s ih =>
    rw [basicText]
    split
    · split
      · exact (run_cons _ _ _).2 ⟨by decide, ih _⟩
      · exact (run_cons _ _ _).2 ⟨by decide, (run_cons _ _ _).2 ⟨by decide, ih _⟩⟩
    · next hquote =>
      split
      · exact (run_cons _ _ _).2 ⟨by decide, ih _⟩
      · exact run_append (spells_escape hquote).run_isPrinted (ih _)

theorem StringForm.run_isPrinted_write {form : StringForm} {s : List Char}
    (h : form = basic ∨ form = longBasic ∨ form.holds s = true) :
    Run isPrinted (form.write s) := by
  have hopening : Run isPrinted (afterOpening s) := by
    rw [afterOpening]
    split
    · exact (run_cons _ _ _).2 ⟨by decide, run_nil _⟩
    · exact run_nil _
  have hclosing (quote : Char) (hquote : isQuote quote = true) (n : Nat) :
      Run isPrinted (List.replicate n quote) := by
    intro c hc
    rw [(List.mem_replicate.1 hc).2]
    exact decide_eq_true fun hreturn => absurd hquote (by rw [hreturn]; decide)
  have htext (hholds : form.holds s = true) : Run isPrinted s := by
    intro c hc
    refine decide_eq_true fun hreturn => ?_
    have hescape := text_of_holds hholds c hc
    rw [hreturn] at hescape
    exact absurd hescape (by decide)
  cases form with
  | basic =>
    exact (run_cons _ _ _).2 ⟨rfl, run_append (run_isPrinted_basicText false 0 s)
      (hclosing '"' rfl 1)⟩
  | literal =>
    exact (run_cons _ _ _).2 ⟨rfl, run_append (htext (by simpa using h)) (hclosing '\'' rfl 1)⟩
  | longBasic =>
    exact run_append (run_append (run_append (hclosing '"' rfl 3) hopening)
      (run_isPrinted_basicText true 0 s)) (hclosing '"' rfl 3)
  | longLiteral =>
    exact run_append (run_append (run_append (hclosing '\'' rfl 3) hopening)
      (htext (by simpa using h))) (hclosing '\'' rfl 3)

theorem run_isPrinted_stringText (s : List Char) : Run isPrinted (stringText s) := by
  rw [stringText, StringForm.ofText]
  split
  · next form hfound =>
    have hholds := List.find?_some hfound
    exact StringForm.run_isPrinted_write (.inr (.inr hholds))
  · split
    · exact StringForm.run_isPrinted_write (.inr (.inl rfl))
    · exact StringForm.run_isPrinted_write (.inl rfl)

theorem run_isPrinted_keyText (key : List Char) : Run isPrinted (keyText key) := by
  rw [keyText]
  split
  · next hbare =>
    rw [Bool.and_eq_true, List.all_eq_true] at hbare
    exact fun c hc => isPrinted_of_isRunChar (isRunChar_of_isBareChar (hbare.2 c hc))
  · split
    · next form hfound =>
      have hholds := List.find?_some hfound
      exact StringForm.run_isPrinted_write (.inr (.inr hholds))
    · exact StringForm.run_isPrinted_write (.inl rfl)

end Sift.Toml

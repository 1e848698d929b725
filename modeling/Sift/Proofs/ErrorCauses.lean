import Mathlib.Control.Monad.Basic
import Sift.Proofs.Acceptance

/-!
# What an error points at

The text that has been read before an error opens groups and has items in each of them. An
error reports the place behind that text, and what stands there is the reason for it: a group
that is not closed up to the end, a quote without an end in the place of a value, a second
connector in one group, a character without a meaning, or no value behind an operator. The
normalized text ends with a parenthesis that no error lies behind, so there always is a
character in the place that is reported.

`Inside` says by the grammar alone which groups a text has opened, `Entered` ties them to the
open groups of the parser, and `Cause` has the reasons for errors.
-/

namespace Sift.Grammar

open Sift.Text Sift.Expr Moment Lexeme

theorem Items.append {strict : Bool} {text text' after : List Char} {es es' : List Expr}
    {ks ks' : List Connector} (h : Items strict text (text' ++ after) es ks)
    (h' : Items strict text' after es' ks') :
    Items strict (text ++ text') after (es ++ es') (ks ++ ks') := by
  generalize hbehind : text' ++ after = behind at h
  induction h with
  | nil => exact h'
  | blank hc _ ih => exact .blank hc (ih hbehind)
  | connector k _ ih => exact .connector k (ih hbehind)
  | group hinner hk _ _ ih =>
    subst hbehind
    simpa using Items.group (by simpa using hinner) hk (ih rfl)
  | comparison hc _ ih =>
    subst hbehind
    simpa using Items.comparison (by simpa using hc) (ih rfl)
  | stray hstrict hc _ ih =>
    subst hbehind
    exact .stray hstrict (by simpa using hc) (ih rfl)

/-- A connector of a sequence stands between two sequences of items. -/
theorem Items.exists_glyph {strict : Bool} {text after : List Char} {es : List Expr}
    {ks : List Connector} (h : Items strict text after es ks) {k : Connector} (hk : k ∈ ks) :
    ∃ front back ds es' js ks', text = front ++ k.glyph :: back ∧
      Items strict front (k.glyph :: (back ++ after)) ds js ∧
      Items strict back after es' ks' := by
  induction h with
  | nil => cases hk
  | blank hc _ ih =>
    obtain ⟨front, back, ds, es', js, ks', rfl, hfront, hback⟩ := ih hk
    exact ⟨_ :: front, back, ds, es', js, ks', rfl, .blank hc hfront, hback⟩
  | connector j h ih =>
    rcases List.mem_cons.1 hk with rfl | hk
    · exact ⟨[], _, [], _, [], _, rfl, .nil, h⟩
    · obtain ⟨front, back, ds, es', js, ks', rfl, hfront, hback⟩ := ih hk
      exact ⟨_ :: front, back, ds, es', _, ks', rfl, .connector j hfront, hback⟩
  | @group inner _ _ _ _ _ _ _ hinner hgoverns _ _ ih =>
    obtain ⟨front, back, ds, es', js, ks', rfl, hfront, hback⟩ := ih hk
    exact ⟨'(' :: inner ++ ')' :: front, back, _, es', js, ks', by simp,
      .group (by simpa using hinner) hgoverns hfront, hback⟩
  | @comparison run _ _ _ _ _ hc _ ih =>
    obtain ⟨front, back, ds, es', js, ks', rfl, hfront, hback⟩ := ih hk
    exact ⟨run ++ front, back, _, es', js, ks', by simp,
      .comparison (by simpa using hc) hfront, hback⟩
  | stray hstrict hc _ ih =>
    obtain ⟨front, back, ds, es', js, ks', rfl, hfront, hback⟩ := ih hk
    exact ⟨_ :: front, back, ds, es', js, ks', rfl, .stray hstrict (by simpa using hc) hfront,
      hback⟩

/-- A group opens behind `opened`, and behind its parenthesis `text` has been read directly in
it. Its items so far are `es` and `ks`, and every group around it has items of its own before
it. What comes after is `after`. -/
inductive Inside (strict : Bool) :
    List Char → List Char → List Char → List Expr → List Connector → Prop
  | outer {text after : List Char} {es : List Expr} {ks : List Connector} {k : Connector}
      (h : Items strict text after es ks) (hk : Governs ks k) : Inside strict [] text after es ks
  | inner {opened text text' after : List Char} {es es' : List Expr} {ks ks' : List Connector}
      {k : Connector} (houter : Inside strict opened text ('(' :: (text' ++ after)) es ks)
      (h : Items strict text' after es' ks') (hk : Governs ks' k) :
      Inside strict (opened ++ '(' :: text) text' after es' ks'

theorem Inside.items {strict : Bool} {opened text after : List Char} {es : List Expr}
    {ks : List Connector} (h : Inside strict opened text after es ks) :
    Items strict text after es ks := by
  cases h with
  | outer h => exact h
  | inner _ h => exact h

def EndsInHead (text : List Char) (field : String) (rest : List Char) : Prop :=
  ∃ gap operator gap', text = field.toList ++ gap ++ operator ++ gap' ∧
    IsHead field.toList gap operator gap' rest ∧
    ∀ value after literal, rest = value ++ after → ¬ IsValue value after literal

/-- The reasons for errors. The text before the place that the error reports comes first, and
then the text from there on. -/
inductive Cause (strict : Bool) : List Char → List Char → ParseError → Prop
  /-- The group that opens here has nothing but items up to the end. -/
  | unclosedGroup {before text : List Char} {es : List Expr} {ks : List Connector}
      (h : Inside strict before text [] es ks) :
      Cause strict before ('(' :: text) (.unclosedGroup (byteLength before))
  /-- A quote stands in the place of a value, and no later quote ends the string. -/
  | unterminatedString {opened text head rest : List Char} {field : String} {es : List Expr}
      {ks : List Connector} (h : Inside strict opened text (head ++ '\'' :: rest) es ks)
      (hhead : EndsInHead head field ('\'' :: rest))
      (hend : ∀ raw denoted after, rest = raw ++ '\'' :: after → ¬ Quoted raw denoted) :
      Cause strict (opened ++ '(' :: text ++ head) ('\'' :: rest)
        (.unterminatedString (byteLength (opened ++ '(' :: text ++ head)))
  /-- The other connector stands in the same group, with items before and behind it. -/
  | mixedLogic {opened front back rest : List Char} {j k : Connector} {es es' es'' : List Expr}
      {ks ks' ks'' : List Connector}
      (h : Inside strict opened (front ++ j.glyph :: back) (k.glyph :: rest) es ks)
      (hfront : Items strict front (j.glyph :: (back ++ k.glyph :: rest)) es' ks')
      (hback : Items strict back (k.glyph :: rest) es'' ks'') (hne : j ≠ k) :
      Cause strict (opened ++ '(' :: (front ++ j.glyph :: back)) (k.glyph :: rest)
        (.mixedLogic (byteLength (opened ++ '(' :: (front ++ j.glyph :: back))))
  /-- A value has to come here, and none does. -/
  | missingValue {opened text head rest : List Char} {field : String} {es : List Expr}
      {ks : List Connector} (h : Inside strict opened text (head ++ rest) es ks)
      (hhead : EndsInHead head field rest) (hquote : ∀ s, rest ≠ '\'' :: s) :
      Cause strict (opened ++ '(' :: text ++ head) rest
        (.missingValue field (byteLength (opened ++ '(' :: text ++ head)))
  /-- A strict reading takes no character that has no meaning where it stands. -/
  | strayCharacter {opened text rest : List Char} {c : Char} {es : List Expr}
      {ks : List Connector} (hstrict : strict = true)
      (h : Inside strict opened text (c :: rest) es ks) (hc : StartsStray (c :: rest)) :
      Cause strict (opened ++ '(' :: text) (c :: rest)
        (.unexpectedCharacter c (byteLength (opened ++ '(' :: text)))
  /-- The outer group is closed, and this is the first character behind it. -/
  | leftover {text gap rest : List Char} {c : Char} {es : List Expr} {ks : List Connector}
      (h : Inside strict [] text (')' :: (gap ++ c :: rest)) es ks) (hgap : Run isBlank gap)
      (hc : isBlank c = false) :
      Cause strict ('(' :: text ++ ')' :: gap) (c :: rest)
        (.unexpectedCharacter c (byteLength ('(' :: text ++ ')' :: gap)))

theorem Cause.position {strict : Bool} {before after : List Char} {error : ParseError}
    (h : Cause strict before after error) : error.position? = some (byteLength before) := by
  cases h <;> rfl

/-- No head of a comparison reaches over a closing parenthesis. -/
theorem EndsInHead.ne_nil {head rest : List Char} {field : String}
    (h : EndsInHead head field rest) {front text : List Char}
    (hlast : front ++ head ++ rest = text ++ [')']) : rest ≠ [] := by
  obtain ⟨gap, operator, gap', rfl, hhead, -⟩ := h
  rintro rfl
  obtain ⟨x, tail, htail⟩ : ∃ x tail, operator ++ gap' = tail ++ [x] := by
    rcases List.eq_nil_or_concat (operator ++ gap') with hnil | ⟨tail, x, hconcat⟩
    · have hpos := hhead.operator.length_pos
      simp [(List.append_eq_nil_iff.1 hnil).1] at hpos
    · exact ⟨x, tail, by simpa using hconcat⟩
  have hx : x = ')' := by
    have hsplit : (front ++ field.toList ++ gap ++ tail) ++ [x] = text ++ [')'] := by
      rw [← hlast, List.append_assoc _ tail, ← htail]
      simp
    exact (List.cons.inj (List.append_inj' hsplit rfl).2).1
  obtain ⟨-, -, -, hblank, hoperator, -⟩ := mark_classes (c := ')') (by decide)
  have hmem : ')' ∈ operator ++ gap' := by
    rw [htail, hx]
    exact List.mem_append_right _ List.mem_cons_self
  rcases List.mem_append.1 hmem with hmem | hmem
  · simp [hhead.operator.run _ hmem] at hoperator
  · simp [hhead.gap' _ hmem] at hblank

theorem Cause.exists_cons {strict : Bool} {before after text : List Char} {error : ParseError}
    (h : Cause strict before after error) (hlast : before ++ after = text ++ [')']) :
    ∃ c rest, after = c :: rest := by
  cases h with
  | missingValue _ hhead => exact List.exists_cons_of_ne_nil (hhead.ne_nil hlast)
  | _ => exact ⟨_, _, rfl⟩

inductive Entered (strict : Bool) : List Scope → Scope → List Char → List Char → Prop
  | outer {text after : List Char} {es : List Expr} {ks : List Connector}
      (h : Items strict text after es ks) (hks : Agrees none ks) :
      Entered strict [] (extend (.opened 0) es ks) ('(' :: text) after
  | inner {outer : List Scope} {scope : Scope} {opened text after : List Char} {es : List Expr}
      {ks : List Connector} (houter : Entered strict outer scope opened ('(' :: (text ++ after)))
      (h : Items strict text after es ks) (hks : Agrees none ks) :
      Entered strict (scope :: outer) (extend (.opened (byteLength opened)) es ks)
        (opened ++ '(' :: text) after

theorem Entered.exists_inside {strict : Bool} {outer : List Scope} {inner : Scope}
    {read after : List Char} (h : Entered strict outer inner read after) :
    ∃ opened text es ks, read = opened ++ '(' :: text ∧
      inner = extend (.opened (byteLength opened)) es ks ∧
      Inside strict opened text after es ks := by
  induction h with
  | outer h hks =>
    obtain ⟨k, hk⟩ := (agrees_none_iff _).1 hks
    exact ⟨[], _, _, _, rfl, rfl, .outer h hk⟩
  | inner _ h hks ih =>
    obtain ⟨opened, text, es, ks, rfl, -, hinside⟩ := ih
    obtain ⟨k, hk⟩ := (agrees_none_iff _).1 hks
    exact ⟨_, _, _, _, rfl, rfl, .inner hinside h hk⟩

theorem agrees_append {seen : Option Connector} {ks ks' : List Connector} (h : Agrees seen ks)
    (h' : Agrees (ks.foldl (fun _ k => some k) seen) ks') : Agrees seen (ks ++ ks') := by
  induction ks generalizing seen with
  | nil => exact h'
  | cons k ks ih => exact ⟨h.1, ih h.2 h'⟩

theorem extend_extend (s : Scope) (es es' : List Expr) (ks ks' : List Connector) :
    extend (extend s es ks) es' ks' = extend s (es ++ es') (ks ++ ks') := by
  simp [extend]

namespace Entered

variable {strict : Bool} {outer : List Scope} {inner scope : Scope} {read after : List Char}

/-- More items in the innermost group. -/
theorem append {text : List Char} {es : List Expr} {ks : List Connector}
    (h : Entered strict outer inner read (text ++ after)) (hitems : Items strict text after es ks)
    (hks : Agrees inner.connector ks) :
    Entered strict outer (extend inner es ks) (read ++ text) after := by
  cases h with
  | outer h hseen =>
    rw [extend_extend]
    exact .outer (h.append hitems) (agrees_append hseen hks)
  | inner houter h hseen =>
    rw [extend_extend, List.append_assoc]
    exact .inner (by simpa using houter) (h.append hitems) (agrees_append hseen hks)

theorem enter (h : Entered strict outer inner read ('(' :: after)) :
    Entered strict (inner :: outer) (.opened (byteLength read)) (read ++ ['(']) after :=
  .inner h .nil trivial

/-- With its closing parenthesis a group becomes an item of the group around it. -/
theorem leave (h : Entered strict (scope :: outer) inner read (')' :: after)) :
    Entered strict outer (scope.add inner.close) (read ++ [')']) after := by
  cases h with
  | @inner _ _ opened text _ es ks houter h hks =>
    obtain ⟨k, hk⟩ := (agrees_none_iff ks).1 hks
    have hgroup : Items strict ('(' :: text ++ [')']) after [.group k es] [] := .group h hk .nil
    have houter' : Entered strict outer scope opened ('(' :: text ++ [')'] ++ after) := by
      simpa using houter
    have hmore := houter'.append hgroup trivial
    rw [close_extend hk]
    simpa [← extend_add] using hmore

end Entered

variable {o : ParseOptions}

/-- What a comparison without a proper value ends in. -/
theorem cause_of_readComparison {opened text : List Char} {es : List Expr} {ks : List Connector}
    {c : Cursor} {error : ParseError} (h : readComparison c = .fault error)
    (hinside : Inside o.strict opened text c.rest es ks)
    (hoffset : c.offset = byteLength (opened ++ '(' :: text)) :
    ∃ before after, opened ++ '(' :: text ++ c.rest = before ++ after ∧
      Cause o.strict before after error := by
  have hstart : StartsComparison c.rest := by
    apply Classical.byContradiction
    intro hstart
    rw [readComparison_eq_nothing hstart] at h
    cases h
  obtain ⟨field, gap, operator, gap', rest, hhead, hc⟩ := hstart.exists_isHead
  have hread := readComparison_of_isHead hhead hc
  have hplace : (c.drop (field ++ gap ++ operator ++ gap').length).offset =
      byteLength (opened ++ '(' :: text ++ (field ++ gap ++ operator ++ gap')) := by
    rw [offset_drop_length hc, hoffset, ← byteLength_append]
  rw [h, hplace] at hread
  have hends (hnone : ∀ literal n, readValue rest ≠ .value literal n) :
      EndsInHead (field ++ gap ++ operator ++ gap') (String.ofList field) rest := by
    refine ⟨gap, operator, gap', by simp, by simpa using hhead, ?_⟩
    rintro value after literal rfl hvalue
    exact hnone _ _ (readValue_append hvalue)
  rw [hc] at hinside ⊢
  refine ⟨opened ++ '(' :: text ++ (field ++ gap ++ operator ++ gap'), rest, by simp, ?_⟩
  cases hvalue : readValue rest with
  | value literal n => simp [hvalue] at hread
  | nothing =>
    simp only [hvalue, ComparisonReading.fault.injEq] at hread
    subst hread
    refine .missingValue hinside (hends (by simp [hvalue])) ?_
    rintro s rfl
    rw [readValue_quote] at hvalue
    cases hlength : quotedLength? s with
    | none => simp [hlength] at hvalue
    | some n => simp [hlength] at hvalue
  | unterminated =>
    simp only [hvalue, ComparisonReading.fault.injEq] at hread
    subst hread
    have hends := hends (by simp [hvalue])
    obtain ⟨s, rfl, hlength⟩ := exists_of_readValue_eq_unterminated hvalue
    refine .unterminatedString hinside hends ?_
    rintro raw denoted after rfl hraw
    rw [quotedLength?_append hraw] at hlength
    cases hlength

theorem mem_of_foldl_last {seen : Option Connector} {ks : List Connector} {j : Connector}
    (h : ks.foldl (fun _ k => some k) seen = some j) : seen = some j ∨ j ∈ ks := by
  induction ks generalizing seen with
  | nil => exact .inl h
  | cons k ks ih =>
    rcases ih h with hk | hmem
    · obtain rfl := Option.some.inj hk
      exact .inr List.mem_cons_self
    · exact .inr (List.mem_cons_of_mem _ hmem)

namespace Entered

variable {strict : Bool} {outer : List Scope} {inner : Scope} {read after : List Char}

/-- The innermost group is open where the text ends. -/
theorem unclosedGroup (h : Entered strict outer inner read []) :
    ∃ before after, read = before ++ after ∧
      Cause strict before after (.unclosedGroup inner.offset) := by
  obtain ⟨opened, text, es, ks, rfl, rfl, hinside⟩ := h.exists_inside
  exact ⟨opened, '(' :: text, rfl, .unclosedGroup hinside⟩

/-- The connector of the innermost group stands in the text that has been read in it. -/
theorem mixedLogic {k : Connector} (h : Entered strict outer inner read (k.glyph :: after))
    (hk : ¬(inner.connector = none ∨ inner.connector = some k)) :
    Cause strict read (k.glyph :: after) (.mixedLogic (byteLength read)) := by
  obtain ⟨opened, text, es, ks, rfl, rfl, hinside⟩ := h.exists_inside
  obtain ⟨hsome, hother⟩ := not_or.1 hk
  obtain ⟨j, hj⟩ := Option.ne_none_iff_exists'.1 hsome
  have hne : j ≠ k := by
    rintro rfl
    exact hother hj
  have hmem : j ∈ ks := (mem_of_foldl_last hj).resolve_left nofun
  obtain ⟨front, back, _, _, _, _, rfl, hfront, hback⟩ := hinside.items.exists_glyph hmem
  exact .mixedLogic hinside hfront hback hne

theorem strayCharacter {x : Char} (hstrict : strict = true)
    (h : Entered strict outer inner read (x :: after)) (hstray : StartsStray (x :: after)) :
    Cause strict read (x :: after) (.unexpectedCharacter x (byteLength read)) := by
  obtain ⟨opened, text, es, ks, rfl, -, hinside⟩ := h.exists_inside
  exact .strayCharacter hstrict hinside hstray

end Entered

/-- A run that fails has a cause in the text before it or at its end. The induction is on the
text that is left, and the groups that have been entered go along with it. -/
theorem cause_of_run_eq_error {outer : List Scope} {inner : Scope} {c : Cursor}
    {read : List Char} {error : ParseError} (hentered : Entered o.strict outer inner read c.rest)
    (hoffset : c.offset = byteLength read) (h : run o ⟨outer, inner, scan c⟩ = .error error)
    (hlimit : ∀ limit, error ≠ .nestingTooDeep limit) :
    ∃ before after, read ++ c.rest = before ++ after ∧ Cause o.strict before after error := by
  induction hn : c.rest.length using Nat.strongRecOn generalizing outer inner c read with
  | ind n ih =>
    subst hn
    have hmore {outer' : List Scope} {inner' : Scope} (text : List Char) {after : List Char}
        (hc : c.rest = text ++ after) (hsome : text ≠ [])
        (hnext : Entered o.strict outer' inner' (read ++ text) after)
        (hrun : run o ⟨outer', inner', scan (c.drop text.length)⟩ = .error error) :
        ∃ before after, read ++ c.rest = before ++ after ∧ Cause o.strict before after error := by
      have hrest := rest_drop_length hc
      obtain ⟨before, after', hsplit, hcause⟩ := ih _ (length_rest_drop_lt hc hsome) (by rwa [hrest])
        (by rw [offset_drop_length hc, hoffset, byteLength_append]) hrun rfl
      exact ⟨before, after', by rw [← hsplit, hrest, hc, List.append_assoc], hcause⟩
    have hran := ran_run o outer inner c
    rw [h] at hran
    cases hran with
    | tooDeep => exact absurd rfl (hlimit _)
    | unclosed hc =>
      rw [hc] at hentered ⊢
      rw [List.append_nil]
      exact hentered.unclosedGroup
    | @blank x s _ hc hx hrun =>
      rw [hc] at hentered
      have hblank : Items o.strict [x] s [] [] := .blank hx .nil
      exact hmore [x] hc (by simp) (hentered.append hblank trivial) hrun
    | enter hc hrun =>
      rw [hc] at hentered
      rw [hoffset] at hrun
      exact hmore ['('] hc (by simp) hentered.enter hrun
    | leave houter hc hrun =>
      subst houter
      rw [hc] at hentered
      exact hmore [')'] hc (by simp) hentered.leave hrun
    | @connect k s _ hc hk hrun =>
      rw [hc] at hentered
      have hglyph : Items o.strict [k.glyph] s [] [k] := .connector k .nil
      exact hmore [k.glyph] hc (by simp) (hentered.append hglyph ⟨hk, trivial⟩) hrun
    | mixed hc hk =>
      rw [hc] at hentered ⊢
      rw [hoffset]
      exact ⟨_, _, rfl, hentered.mixedLogic hk⟩
    | @compare text after k _ hc hk hrun =>
      rw [hc] at hentered
      have hk' : IsComparison text ([] ++ after) k := hk
      have hitem : Items o.strict text after [.comparison k] [] := by
        simpa using Items.comparison hk' .nil
      have hsome : text ≠ [] := List.length_pos_iff.1 hk.length_pos
      exact hmore text hc hsome (hentered.append hitem trivial) hrun
    | @skip x s _ hc hstray hstrict hrun =>
      rw [hc] at hentered
      have hskipped : Items o.strict [x] s [] [] := .stray hstrict hstray .nil
      exact hmore [x] hc (by simp) (hentered.append hskipped trivial) hrun
    | refuse hc hstray hstrict =>
      rw [hc] at hentered ⊢
      rw [hoffset]
      exact ⟨_, _, rfl, hentered.strayCharacter hstrict hstray⟩
    | fault hread =>
      obtain ⟨opened, text, es, ks, rfl, rfl, hinside⟩ := hentered.exists_inside
      exact cause_of_readComparison hread hinside hoffset

/-- What is found behind the outer group is the cause of an error there. -/
theorem cause_of_finished_eq_error {c : Cursor} {r : Reading} {error : ParseError}
    (hoffset : c.offset = byteLength ['(']) (hrun : run o ⟨[], .opened 0, scan c⟩ = .ok r)
    (h : r.finished = .error error) :
    ∃ before after, '(' :: c.rest = before ++ after ∧ Cause o.strict before after error := by
  obtain ⟨text, rest, es, ks, k, hc, hitems, hk, -, rfl⟩ := run_outer_eq_ok_iff.1 hrun
  have hrest := rest_drop_length hc
  cases hbehind : scan ((c.drop text.length).drop 1) with
  | nil =>
    rw [Reading.finished, hbehind] at h
    cases h
  | cons l ls =>
    obtain ⟨gap, after, hgap, hblank, hl, hplace⟩ := exists_of_scan_eq_cons hbehind
    rw [Cursor.rest_drop, hrest, List.drop_one, List.tail_cons] at hgap
    subst hgap
    rw [Reading.finished, hbehind] at h
    obtain rfl := Except.error.inj h
    rw [hplace, offset_drop_one hrest, offset_drop_length hc, hoffset]
    have hposition : byteLength ['('] + byteLength text + Char.utf8Size ')' + byteLength gap =
        byteLength ('(' :: text ++ ')' :: gap) := by
      simp only [List.cons_append, byteLength_cons, byteLength_append, byteLength_nil]
      omega
    rw [hposition, hc]
    exact ⟨_, _, by simp, .leftover (.outer hitems hk) hblank hl⟩

theorem exists_cause_of_parse_eq_error {s : String} {error : ParseError}
    (h : Expr.parse o s = .error error) (hlimit : ∀ limit, error ≠ .nestingTooDeep limit) :
    ∃ before c after, (Expr.normalize s).toList = before ++ c :: after ∧
      error.position? = some (byteLength before) ∧ Cause o.strict before (c :: after) error := by
  obtain ⟨inner, hinner⟩ := exists_normalizeChars_eq s.toList
  have hopen : (Cursor.start (normalizeChars s.toList)).rest = '(' :: (inner ++ [')']) := hinner
  have hrest := rest_drop_one hopen
  have hoffset : ((Cursor.start (normalizeChars s.toList)).drop 1).offset = byteLength ['('] :=
    offset_drop_one hopen
  have hcause : ∃ before after, '(' :: (inner ++ [')']) = before ++ after ∧
      Cause o.strict before after error := by
    rw [parse_eq_run, start, lexemes, scan_opening hopen, List.tail_cons] at h
    rw [← hrest]
    generalize hrun : run o _ = result at h
    cases result with
    | error error' =>
      obtain rfl := Except.error.inj h
      have hentered : Entered o.strict [] (.opened 0) ['('] ((Cursor.start
          (normalizeChars s.toList)).drop 1).rest := .outer .nil trivial
      exact cause_of_run_eq_error hentered hoffset hrun hlimit
    | ok r => exact cause_of_finished_eq_error hoffset hrun h
  obtain ⟨before, after, hsplit, hcause⟩ := hcause
  have hlast : before ++ after = '(' :: inner ++ [')'] := hsplit.symm
  obtain ⟨c, rest, rfl⟩ := hcause.exists_cons hlast
  refine ⟨before, c, rest, ?_, hcause.position, hcause⟩
  rw [Expr.normalize, String.toList_ofList, hinner, hsplit]

/-- A second connector behind a nested group, with characters of two bytes before it and in a
string. -/
theorem exists_cause_of_parse_eq_error_mixedLogic :
    Expr.parse .default "é(a='ü'&(b=1)|c=2)" = .error (.mixedLogic 16) ∧
      ∃ before c after, (Expr.normalize "é(a='ü'&(b=1)|c=2)").toList = before ++ c :: after ∧
        byteLength before = 16 ∧ Cause false before (c :: after) (.mixedLogic 16) := by
  have h : Expr.parse .default "é(a='ü'&(b=1)|c=2)" = .error (.mixedLogic 16) := by
    decide +kernel
  obtain ⟨before, c, after, hsplit, hposition, hcause⟩ :=
    exists_cause_of_parse_eq_error h nofun
  exact ⟨h, before, c, after, hsplit, (Option.some.inj hposition).symm, hcause⟩

end Sift.Grammar

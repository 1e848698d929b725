import Sift.Proofs.CalendarDays
import Sift.Proofs.Notation
import Sift.Proofs.TomlStrings

/-!
# Numbers, dates and booleans are read back

Each of them is written as one run of characters. The run is cut off by what follows a
value, and it is taken for no other kind of scalar: a date has its hyphens and a time its
colons at fixed places, a float has a point or a name, and an integer has neither.
-/

namespace Sift.Toml

open Sift.Text Sift.Grammar

/-- What follows a value: a comma, the end of an array or of the line, or the end of an
inline table. -/
inductive EndsValue : List Char → Prop
  | mark {c : Char} (h : c ∈ [',', ']', '\n']) (s : List Char) : EndsValue (c :: s)
  | brace (s : List Char) : EndsValue (' ' :: '\x7d' :: s)

theorem EndsValue.stops {rest : List Char} (h : EndsValue rest) :
    Stops isRunChar rest ∧ Stops isQuote rest := by
  cases h with
  | @mark c h s =>
    have hall : ∀ c ∈ [',', ']', '\n'], isRunChar c = false ∧ isQuote c = false :=
      forall_mem_of_all (by decide)
    exact hall c h
  | brace s =>
    rw [stops_cons, stops_cons]
    decide

theorem takeRun_append {run rest : List Char} (hrun : Run isRunChar run) (hrest : EndsValue rest) :
    takeRun (run ++ rest) = (run, rest) := by
  have hstops := hrest.stops.1
  unfold takeRun
  rw [takeWhile_run hrun hstops, dropWhile_run hrun hstops]
  dsimp only
  split
  · cases hrest with
    | mark h s => exact absurd h (by decide)
    | brace s => rfl
  · rfl

theorem string?_eq_none {c : Char} (h : isQuote c = false) (s : List Char) :
    string? (c :: s) = none := by
  obtain ⟨hdouble, hsingle⟩ := Bool.or_eq_false_iff.1 h
  rw [string?.eq_def]
  split <;> simp_all

theorem isQuote_of_isRunChar {c : Char} (h : isRunChar c = true) : isQuote c = false := by
  have hmark := isMark_of_isRunChar h
  exact Bool.or_eq_false_iff.2 ⟨decide_eq_false (ne_of_isMark hmark (by decide)),
    decide_eq_false (ne_of_isMark hmark (by decide))⟩

theorem taken_scalar_run {run rest : List Char} (hsome : run ≠ []) (hrun : Run isRunChar run)
    (hrest : EndsValue rest) :
    taken (scalar (run ++ rest)) = (scalarOfRun? run).map fun v => (v, rest) := by
  obtain ⟨c, cs, rfl⟩ := List.exists_cons_of_ne_nil hsome
  have hquote := isQuote_of_isRunChar ((run_cons _ _ _).1 hrun).1
  have hlength : rest.length < (c :: cs ++ rest).length := by
    rw [List.length_append, List.length_cons]
    omega
  have hstring : string? (c :: cs ++ rest) = none := string?_eq_none hquote (cs ++ rest)
  rw [scalar, hstring, takeRun_append hrun hrest]
  dsimp only
  rw [Rest.of?_eq hlength]
  cases scalarOfRun? (c :: cs) with
  | none => rfl
  | some v => rfl

theorem taken_scalar_string (s : List Char) {rest : List Char} (hrest : Stops isQuote rest) :
    taken (scalar (stringText s ++ rest)) = some (.string (String.ofList s), rest) := by
  have hlength : rest.length < (stringText s ++ rest).length := by
    obtain ⟨c, t, htext, -⟩ := (StringForm.ofText s).write_head s
    rw [stringText, htext, List.length_append, List.length_cons]
    omega
  rw [scalar, string?_stringText s hrest]
  dsimp only
  rw [Rest.of?_eq hlength]
  rfl

theorem moreDigits_run {isOne : Char → Bool} {digits : List Char} (hdigits : Run isOne digits)
    (hunderscore : isOne '_' = false) {rest : List Char} (hrest : Stops isOne rest)
    (hrest' : Stops (· = '_') rest) : moreDigits isOne (digits ++ rest) = (digits, rest) := by
  induction digits with
  | nil =>
    cases rest with
    | nil => rfl
    | cons c s =>
      rw [List.nil_append, moreDigits.eq_def]
      split <;> simp_all
  | cons c digits ih =>
    obtain ⟨hc, hdigits⟩ := (run_cons _ _ _).1 hdigits
    rw [List.cons_append, moreDigits.eq_def]
    split
    · contradiction
    · next heq =>
      rw [(List.cons.inj heq).1, hunderscore] at hc
      exact absurd hc Bool.false_ne_true
    · next heq =>
      obtain ⟨rfl, rfl⟩ := List.cons.inj heq
      rw [if_pos hc, ih hdigits]

theorem someDigits_run {isOne : Char → Bool} {digits : List Char} (hsome : digits ≠ [])
    (hdigits : Run isOne digits) (hunderscore : isOne '_' = false) {rest : List Char}
    (hrest : Stops isOne rest) (hrest' : Stops (· = '_') rest) :
    someDigits isOne (digits ++ rest) = some (digits, rest) := by
  obtain ⟨c, cs, rfl⟩ := List.exists_cons_of_ne_nil hsome
  obtain ⟨hc, hdigits⟩ := (run_cons _ _ _).1 hdigits
  rw [List.cons_append, someDigits, if_pos hc, moreDigits_run hdigits hunderscore hrest hrest']

theorem wholeDigits_run {digits : List Char} (hsome : digits ≠ []) (hdigits : Run isDigit digits)
    (hleading : digits.head? = some '0' → digits = ['0']) {rest : List Char}
    (hrest : Stops isDigit rest) (hrest' : Stops (· = '_') rest) :
    wholeDigits (digits ++ rest) = some (digits, rest) := by
  rw [wholeDigits.eq_def]
  split
  · next heq =>
    obtain ⟨c, cs, rfl⟩ := List.exists_cons_of_ne_nil hsome
    obtain ⟨rfl, htail⟩ := List.cons.inj heq
    have hnil := (List.cons.inj (hleading rfl)).2
    subst hnil
    exact congrArg (fun t => some (['0'], t)) htail.symm
  · exact someDigits_run hsome hdigits (by decide) hrest hrest'

theorem takeChar_eq_none {c : Char} {s : List Char} (h : c ∉ s) : takeChar [c] s = none := by
  cases s with
  | nil => rfl
  | cons d s =>
    rw [List.mem_cons, not_or] at h
    rw [takeChar, if_neg (by simpa using Ne.symm h.1)]

theorem takeDigits_eq (n : Nat) (s : List Char) :
    takeDigits n s = none ∨ ∃ k, takeDigits n s = some (k, s.drop n) := by
  unfold takeDigits
  dsimp only
  split
  · exact .inr ⟨_, rfl⟩
  · exact .inl rfl

/-- Neither a date nor a time has its marks missing. -/
theorem dateTime?_eq_none {s : List Char} (hhyphen : '-' ∉ s.drop 4) (hcolon : ':' ∉ s) :
    dateTime? s = none := by
  have hdate : takeDate s = none := by
    rcases takeDigits_eq 4 s with htake | ⟨k, htake⟩
    · simp [takeDate, htake]
    · simp [takeDate, htake, takeChar_eq_none hhyphen]
  have htime : takeTime s = none := by
    rcases takeDigits_eq 2 s with htake | ⟨k, htake⟩
    · simp [takeTime, htake]
    · have hcolon' : ':' ∉ s.drop 2 := fun h => hcolon (List.mem_of_mem_drop h)
      simp [takeTime, htake, takeChar_eq_none hcolon']
  simp only [dateTime?, hdate, htime]

theorem scalarOfRun?_eq {run : List Char} (htrue : run ≠ "true".toList)
    (hfalse : run ≠ "false".toList) :
    scalarOfRun? run =
      match dateTime? run with
      | some d => some (.dateTime d)
      | none =>
        match float? run with
        | some x => some (.float x)
        | none =>
          match integer? run with
          | some i => if fits64 i then some (.integer (Int64.ofInt i)) else none
          | none => none := by
  have hne {name : String} (h : run ≠ name.toList) : String.ofList run ≠ name := by
    rintro rfl
    exact h String.toList_ofList.symm
  rw [scalarOfRun?]
  split
  · next heq => exact absurd heq (hne htrue)
  · next heq => exact absurd heq (hne hfalse)
  · rfl

theorem float?_eq {negative : Bool} {s name : List Char} (hsign : takeSign s = (negative, name))
    (hinf : name ≠ "inf".toList) (hnan : name ≠ "nan".toList) :
    float? s = (decimal? s).bind fun d =>
      if Binary64.ofDecimal d = .infinity false then none else some (.ofDecimal d) := by
  have hne {word : String} (h : name ≠ word.toList) : String.ofList name ≠ word := by
    rintro rfl
    exact h String.toList_ofList.symm
  rw [float?, hsign]
  dsimp only
  split
  · next heq => exact absurd heq (hne hinf)
  · next heq => exact absurd heq (hne hnan)
  · cases decimal? s with
    | none => rfl
    | some d => rfl

theorem fits64_toInt (i : Int64) : fits64 i.toInt = true :=
  Bool.and_eq_true_iff.2 ⟨decide_eq_true i.minValue_le_toInt, decide_eq_true i.toInt_le⟩

theorem isDigit_classes {c : Char} (h : isDigit c = true) :
    c ≠ 't' ∧ c ≠ 'f' ∧ c ≠ 'i' ∧ c ≠ 'n' ∧ c ≠ '-' ∧ c ≠ ':' ∧ c ≠ '.' := by
  revert h
  apply of_isDigit
  decide

/-- A sign, a digit and then no colon and no further sign. -/
theorem scalarOfRun?_signed {negative : Bool} {d : Char} {s : List Char} (hd : isDigit d = true)
    (hcolon : ':' ∉ s) (hhyphen : '-' ∉ s) :
    scalarOfRun? (signed negative (d :: s)) =
      match (decimal? (signed negative (d :: s))).bind fun d =>
        if Binary64.ofDecimal d = .infinity false then none else some (.ofDecimal d) with
      | some x => some (.float x)
      | none =>
        match integer? (signed negative (d :: s)) with
        | some i => if fits64 i then some (.integer (Int64.ofInt i)) else none
        | none => none := by
  obtain ⟨ht, hf, hi, hn, hminus, hcol, -⟩ := isDigit_classes hd
  have hname {word : List Char} (hword : word.head? ≠ some '-') (hword' : word.head? ≠ some d) :
      signed negative (d :: s) ≠ word := by
    rintro rfl
    cases negative with
    | true => exact hword rfl
    | false => exact hword' rfl
  have hdate : dateTime? (signed negative (d :: s)) = none := by
    have hds : '-' ∉ d :: s ∧ ':' ∉ d :: s :=
      ⟨List.not_mem_cons_of_ne_of_not_mem hminus.symm hhyphen,
        List.not_mem_cons_of_ne_of_not_mem hcol.symm hcolon⟩
    cases negative with
    | true =>
      exact dateTime?_eq_none (fun h => hds.1 (List.mem_of_mem_drop (i := 3) h))
        (List.not_mem_cons_of_ne_of_not_mem (by decide) hds.2)
    | false => exact dateTime?_eq_none (fun h => hds.1 (List.mem_of_mem_drop h)) hds.2
  rw [scalarOfRun?_eq (hname (by decide) (by simpa using ht.symm))
    (hname (by decide) (by simpa using hf.symm)), hdate]
  dsimp only
  rw [float?_eq (takeSign_signed hd) (fun h => hi (List.cons.inj h).1)
      (fun h => hn (List.cons.inj h).1)]

/-- Digits without a zero before them have no radix. -/
theorem integer?_signed (negative : Bool) {digits : List Char}
    (hleading : digits.head? = some '0' → digits = ['0']) :
    integer? (signed negative digits) = decimalInteger? (signed negative digits) := by
  have hradix (c : Char) (s : List Char) : signed negative digits ≠ '0' :: c :: s := by
    intro heq
    cases negative with
    | true => exact absurd (List.cons.inj heq).1 (by decide)
    | false =>
      obtain rfl : digits = '0' :: c :: s := heq
      exact List.cons_ne_nil _ _ (List.cons.inj (hleading rfl)).2
  rw [integer?.eq_def]
  split
  · next heq => exact absurd heq (hradix _ _)
  · next heq => exact absurd heq (hradix _ _)
  · next heq => exact absurd heq (hradix _ _)
  · rfl

theorem scalarOfRun?_digitsOfInt (i : Int64) :
    scalarOfRun? (digitsOfInt i.toInt) = some (.integer i) := by
  obtain ⟨htext, hvalue⟩ := digitsOfInt_eq i.toInt
  have hrun := run_digitsOfNat i.toInt.natAbs
  have hleading : (digitsOfNat i.toInt.natAbs).head? = some '0' →
      digitsOfNat i.toInt.natAbs = ['0'] := leading_digitsOfNat
  have hwhole := wholeDigits_run (digitsOfNat_ne_nil i.toInt.natAbs) hrun hleading (stops_nil _)
    (stops_nil _)
  rw [List.append_nil] at hwhole
  rw [htext]
  obtain ⟨d, ds, hcons⟩ := List.exists_cons_of_ne_nil (digitsOfNat_ne_nil i.toInt.natAbs)
  rw [hcons] at hrun hwhole hvalue hleading ⊢
  obtain ⟨hd, hds⟩ := (run_cons _ _ _).1 hrun
  have hsign : takeSign (signed (i.toInt < 0) (d :: ds)) = (decide (i.toInt < 0), d :: ds) :=
    takeSign_signed hd
  have hdecimal : decimal? (signed (i.toInt < 0) (d :: ds)) = none := by
    simp [decimal?, hsign, hwhole, floatExponent?]
  have hinteger : integer? (signed (i.toInt < 0) (d :: ds)) = some i.toInt := by
    rw [integer?_signed _ hleading, decimalInteger?, hsign]
    simp only [hwhole]
    exact congrArg some hvalue
  rw [scalarOfRun?_signed hd (not_mem_of_run hds (by decide)) (not_mem_of_run hds (by decide)),
    hdecimal, hinteger]
  simp [fits64_toInt, Int64.ofInt_toInt]

theorem scalarOfRun?_numeral {d : Decimal} {digits fraction : List Char}
    (h : IsNumeral d digits fraction) {x : Binary64} (hx : Binary64.ofDecimal d = x)
    (hfinite : x.isFinite) :
    scalarOfRun? (signed d.negative (digits ++ '.' :: fraction)) = some (.float x) := by
  have hwhole : wholeDigits (digits ++ '.' :: fraction) = some (digits, '.' :: fraction) :=
    wholeDigits_run h.digits_ne_nil h.run_digits h.leading (by rw [stops_cons]; decide)
      (by rw [stops_cons]; decide)
  have hfraction := someDigits_run h.fraction_ne_nil h.run_fraction (by decide) (stops_nil _)
    (stops_nil _)
  have hvalue := ofDecimal_isNumeral h
  have hinfinite : Binary64.ofDecimal d ≠ .infinity false := by
    intro heq
    rw [← hx, heq] at hfinite
    exact absurd hfinite (by decide)
  have hrun := h.run_digits
  rw [List.append_nil] at hfraction
  obtain ⟨c, cs, hcons⟩ := List.exists_cons_of_ne_nil h.digits_ne_nil
  rw [hcons] at hrun hwhole hvalue ⊢
  rw [List.cons_append] at hwhole hvalue ⊢
  obtain ⟨hc, hcs⟩ := (run_cons _ _ _).1 hrun
  have hsign : takeSign (signed d.negative (c :: (cs ++ '.' :: fraction))) =
      (d.negative, c :: (cs ++ '.' :: fraction)) := takeSign_signed hc
  have hdecimal : decimal? (signed d.negative (c :: (cs ++ '.' :: fraction))) =
      some ⟨d.negative, natOfDigits (c :: (cs ++ fraction)), -fraction.length⟩ := by
    simp [decimal?, hsign, hwhole, hfraction]
  have hrest {m : Char} (hm : isDigit m = false) (hpoint : m ≠ '.') :
      m ∉ cs ++ '.' :: fraction := by
    rw [List.mem_append, List.mem_cons, not_or, not_or]
    exact ⟨not_mem_of_run hcs hm, hpoint, not_mem_of_run h.run_fraction hm⟩
  rw [scalarOfRun?_signed hc (hrest (by decide) (by decide)) (hrest (by decide) (by decide)),
    hdecimal, Option.bind_some, hvalue, if_neg hinfinite, hx]

theorem eq_infinity {x : Binary64} (hnan : x.isNaN = false) (hfinite : x.isFinite = false) :
    x = .infinity x.negative := by
  obtain ⟨negative, exponent, fraction⟩ := x
  have hexponent : exponent = 2047 := by simpa [Binary64.isFinite] using hfinite
  have hfraction : fraction = 0 := by simpa [Binary64.isNaN, hexponent] using hnan
  rw [hexponent, hfraction]
  rfl

theorem tomlText_cases {x : Binary64} (hnan : x.isNaN = false) :
    (x.isFinite = true ∧ ∃ digits fraction, IsNumeral (x.shortest .up) digits fraction ∧
        x.tomlText = signed (x.shortest .up).negative (digits ++ '.' :: fraction)) ∨
      x = .infinity x.negative ∧ x.tomlText = signed x.negative "inf".toList := by
  rw [Binary64.tomlText, hnan, if_neg Bool.false_ne_true]
  by_cases hfinite : x.isFinite = true
  · obtain ⟨digits, fraction, hnumeral, htext⟩ := withFraction_positional (x.shortest .up)
    exact .inl ⟨hfinite, digits, fraction, hnumeral, by rw [if_pos hfinite, htext]⟩
  · refine .inr ⟨eq_infinity hnan (Bool.eq_false_iff.2 hfinite), ?_⟩
    rw [if_neg hfinite]
    cases x.negative with
    | true => rfl
    | false => rfl

theorem scalarOfRun?_tomlText {x : Binary64} (hnan : x.isNaN = false) :
    scalarOfRun? x.tomlText = some (.float x) := by
  rcases tomlText_cases hnan with ⟨hfinite, digits, fraction, hnumeral, htext⟩ | ⟨hx, htext⟩
  · rw [htext]
    exact scalarOfRun?_numeral hnumeral (Binary64.ofDecimal_shortest .up hfinite) hfinite
  · rw [htext]
    generalize x.negative = negative at hx ⊢
    rw [hx]
    cases negative with
    | true => rfl
    | false => rfl

theorem isRunChar_of_isDigit {c : Char} (h : isDigit c = true) : isRunChar c = true := by
  simp [isRunChar, h]

theorem run_isRunChar {s : List Char} (h : Run isDigit s) : Run isRunChar s :=
  fun c hc => isRunChar_of_isDigit (h c hc)

theorem run_isRunChar_signed (negative : Bool) {s : List Char} (h : Run isRunChar s) :
    Run isRunChar (signed negative s) := by
  cases negative with
  | true => exact (run_cons _ _ _).2 ⟨by decide, h⟩
  | false => exact h

theorem signed_ne_nil (negative : Bool) {s : List Char} (h : s ≠ []) : signed negative s ≠ [] := by
  cases negative with
  | true => exact List.cons_ne_nil _ _
  | false => exact h

theorem run_isRunChar_digitsOfInt (i : Int) :
    digitsOfInt i ≠ [] ∧ Run isRunChar (digitsOfInt i) := by
  rw [(digitsOfInt_eq i).1]
  exact ⟨signed_ne_nil _ (digitsOfNat_ne_nil _),
    run_isRunChar_signed _ (run_isRunChar (run_digitsOfNat _))⟩

theorem run_isRunChar_tomlText {x : Binary64} (hnan : x.isNaN = false) :
    x.tomlText ≠ [] ∧ Run isRunChar x.tomlText := by
  rcases tomlText_cases hnan with ⟨-, digits, fraction, hnumeral, htext⟩ | ⟨-, htext⟩
  · rw [htext]
    refine ⟨signed_ne_nil _ (by simp), run_isRunChar_signed _ ?_⟩
    exact run_append (run_isRunChar hnumeral.run_digits)
      ((run_cons _ _ _).2 ⟨by decide, run_isRunChar hnumeral.run_fraction⟩)
  · rw [htext]
    exact ⟨signed_ne_nil _ (by decide), run_isRunChar_signed _ (run_of_all (by decide))⟩

def LocalDate.IsValid (d : LocalDate) : Prop :=
  d.year < 10000 ∧ 1 ≤ d.day ∧ d.day ≤ Time.daysInMonth d.year d.month

def LocalTime.IsValid (t : LocalTime) : Prop :=
  t.hour ≤ 23 ∧ t.minute ≤ 59 ∧ t.second ≤ 60 ∧ t.nanos < 1000000000

def Offset.IsValid : Offset → Prop
  | .utc => True
  | .minutes n => n.natAbs < 1440

def DateTime.IsValid : DateTime → Prop
  | .date d => d.IsValid
  | .time t => t.IsValid
  | .dateTime d t offset => d.IsValid ∧ t.IsValid ∧ ∀ o, offset = some o → o.IsValid

theorem LocalDate.IsValid.small {d : LocalDate} (h : d.IsValid) : d.month < 100 ∧ d.day < 100 := by
  obtain ⟨-, hpos, hle⟩ := h
  have hday := Time.daysInMonth_le d.year d.month
  have hmonth := Time.month_le_of_daysInMonth_pos (Nat.lt_of_lt_of_le hpos hle)
  omega

theorem takeDigits_two {n : Nat} (h : n < 100) (rest : List Char) :
    takeDigits 2 (padded 2 n ++ rest) = some (n, rest) := takeDigits_padded (by decide) h rest

theorem takeDate_text {d : LocalDate} (h : d.IsValid) (rest : List Char) :
    takeDate (d.text ++ rest) = some (d, rest) := by
  obtain ⟨hmonth, hday⟩ := h.small
  have hchar (s : List Char) : takeChar ['-'] ('-' :: s) = some s := rfl
  have hyear (s : List Char) : takeDigits 4 (padded 4 d.year ++ s) = some (d.year, s) :=
    takeDigits_padded (by decide) h.1 s
  simp only [LocalDate.text, List.append_assoc, List.cons_append, takeDate, hyear,
    takeDigits_two hmonth, takeDigits_two hday, hchar, Option.bind_eq_bind, Option.bind_some,
    if_pos h.2]

theorem exists_trailing_zeros (s : List Char) :
    ∃ k, s = (s.reverse.dropWhile (· = '0')).reverse ++ List.replicate k '0' := by
  refine ⟨(s.reverse.takeWhile (· = '0')).length, ?_⟩
  have hzeros : s.reverse.takeWhile (· = '0') =
      List.replicate (s.reverse.takeWhile (· = '0')).length '0' :=
    List.eq_replicate_of_mem fun c hc => of_decide_eq_true (run_takeWhile _ _ c hc)
  have hsplit := congrArg List.reverse
    (List.takeWhile_append_dropWhile (p := (· = '0')) (l := s.reverse))
  rw [List.reverse_append, List.reverse_reverse] at hsplit
  conv_lhs => rw [← hsplit, hzeros, List.reverse_replicate]

def EndsTime (rest : List Char) : Prop := Stops isDigit rest ∧ Stops (· = '.') rest

theorem takeNanos_text {n : Nat} (h : n < 1000000000) {rest : List Char} (hrest : EndsTime rest) :
    takeNanos ((if n = 0 then [] else
      '.' :: ((padded 9 n).reverse.dropWhile (· = '0')).reverse) ++ rest) = some (n, rest) := by
  by_cases hzero : n = 0
  · rw [if_pos hzero, List.nil_append, takeNanos_of_stops hrest.2, hzero]
  · rw [if_neg hzero]
    obtain ⟨k, hsplit⟩ := exists_trailing_zeros (padded 9 n)
    generalize ((padded 9 n).reverse.dropWhile (· = '0')).reverse = digits at hsplit ⊢
    have hlength : digits.length + k = 9 := by
      have hnine : (padded 9 n).length = 9 := (width_padded (by decide) h).1
      rwa [hsplit, List.length_append, List.length_replicate] at hnine
    have hvalue : natOfDigits digits * Nat.pow 10 k = n := by
      rw [← natOfDigits_append_zeros, ← hsplit, natOfDigits_padded]
    have hrun : Run isDigit digits := by
      have hpadded := run_padded 9 n
      rw [hsplit] at hpadded
      exact fun c hc => hpadded c (List.mem_append_left _ hc)
    have hsome : digits ≠ [] := by
      rintro rfl
      exact hzero (hvalue.symm.trans (Nat.zero_mul _))
    rw [List.cons_append, takeNanos_fraction hrun hrest.1, if_neg hsome,
      List.take_of_length_le (by omega), show 9 - digits.length = k by omega, hvalue]

theorem takeTime_text {t : LocalTime} (h : t.IsValid) {rest : List Char} (hrest : EndsTime rest) :
    takeTime (t.text ++ rest) = some (t, rest) := by
  obtain ⟨hhour, hminute, hsecond, hnanos⟩ := h
  have hchar (s : List Char) : takeChar [':'] (':' :: s) = some s := rfl
  simp only [LocalTime.text, List.append_assoc, List.cons_append, takeTime,
    takeDigits_two (show t.hour < 100 by omega), takeDigits_two (show t.minute < 100 by omega),
    takeDigits_two (show t.second < 100 by omega), hchar, takeNanos_text hnanos hrest,
    Option.bind_eq_bind,
    Option.bind_some, if_pos (And.intro hhour (And.intro hminute hsecond))]

theorem offset?_minutes {c : Char} (hc : c = '+' ∨ c = '-') {hours minutes : Nat}
    (hhours : hours ≤ 23) (hminutes : minutes ≤ 59) :
    offset? (c :: padded 2 hours ++ ':' :: padded 2 minutes) =
      some (.minutes
        (if c = '-' then -(60 * hours + minutes : Int) else 60 * hours + minutes)) := by
  have hchar (s : List Char) : takeChar [':'] (':' :: s) = some s := rfl
  have hfirst := takeDigits_two (show hours < 100 by omega) (':' :: padded 2 minutes)
  have hlast := takeDigits_two (show minutes < 100 by omega) []
  rw [List.append_nil] at hlast
  have hutc : ¬ (c = 'Z' ∨ c = 'z') := by rcases hc with rfl | rfl <;> decide
  have hsign : c = '+' ∨ c = '-' := hc
  simp only [List.cons_append, offset?, Bool.or_eq_true, decide_eq_true_eq, hutc, hsign, if_false,
    if_true, hfirst, hchar, hlast, Option.bind_eq_bind, Option.bind_some, hhours, hminutes,
    and_self]

theorem offset?_text {o : Offset} (h : o.IsValid) : offset? o.text = some o := by
  cases o with
  | utc => rfl
  | minutes n =>
    have hn : n.natAbs < 1440 := h
    have hhours : n.natAbs / 60 ≤ 23 := by omega
    have hminutes : n.natAbs % 60 ≤ 59 := by omega
    rw [Offset.text]
    by_cases hnegative : n < 0
    · rw [if_pos hnegative, offset?_minutes (.inr rfl) hhours hminutes, if_pos rfl]
      congr 2
      omega
    · rw [if_neg hnegative, offset?_minutes (.inl rfl) hhours hminutes, if_neg (by decide)]
      congr 2
      omega

theorem takeDate_time {t : LocalTime} (h : t.IsValid) : takeDate t.text = none := by
  have hlength : (padded 2 t.hour).length = 2 :=
    (width_padded (by decide) (Nat.lt_of_le_of_lt h.1 (by decide))).1
  have hcolon : ':' ∈ t.text.take 4 := by
    rw [LocalTime.text, List.append_assoc, List.append_assoc, List.take_append, hlength]
    exact List.mem_append_right _ (List.mem_cons_self ..)
  have hdigits : takeDigits 4 t.text = none := by
    have hnot : (t.text.take 4).all isDigit ≠ true := fun hall =>
      absurd (List.all_eq_true.1 hall _ hcolon) (by decide)
    rw [takeDigits, if_neg fun h => hnot h.2]
  simp only [takeDate, hdigits, Option.bind_eq_bind, Option.bind_none]

theorem afterDate?_time (d : LocalDate) {t : LocalTime} (h : t.IsValid) :
    afterDate? d ('T' :: t.text) = some (.dateTime d t none) := by
  have htake := takeTime_text h ⟨stops_nil _, stops_nil _⟩
  rw [List.append_nil] at htake
  rw [afterDate?, if_pos (by decide), htake]

theorem afterDate?_offset (d : LocalDate) {t : LocalTime} (h : t.IsValid) {o : Offset}
    (ho : o.IsValid) :
    afterDate? d ('T' :: (t.text ++ o.text)) = some (.dateTime d t (some o)) := by
  obtain ⟨c, s, htext, hc⟩ : ∃ c s, o.text = c :: s ∧ c ∈ ['Z', '-', '+'] := by
    cases o with
    | utc => exact ⟨_, _, rfl, by decide⟩
    | minutes n =>
      refine ⟨_, _, rfl, ?_⟩
      split <;> decide
  have hall : ∀ c ∈ ['Z', '-', '+'], isDigit c = false ∧ decide (c = '.') = false :=
    forall_mem_of_all (by decide)
  have hend : EndsTime o.text := by
    rw [htext]
    exact hall c hc
  have hread := offset?_text ho
  rw [afterDate?, if_pos (by decide), takeTime_text h hend]
  rw [htext] at hread ⊢
  dsimp only
  rw [hread]
  rfl

theorem dateTime?_text {d : DateTime} (h : d.IsValid) : dateTime? d.text = some d := by
  cases d with
  | date d =>
    have htake := takeDate_text h []
    rw [List.append_nil] at htake
    rw [dateTime?, DateTime.text, htake]
    rfl
  | time t =>
    have htake := takeTime_text h ⟨stops_nil _, stops_nil _⟩
    rw [List.append_nil] at htake
    rw [dateTime?, DateTime.text, takeDate_time h]
    dsimp only
    rw [htake]
  | dateTime d t offset =>
    obtain ⟨hd, ht, hoffset⟩ := h
    rw [dateTime?, DateTime.text, List.append_assoc, takeDate_text hd]
    cases offset with
    | none =>
      rw [Option.map_none, Option.getD_none, List.append_nil]
      exact afterDate?_time d ht
    | some o => exact afterDate?_offset d ht (hoffset o rfl)

/-- A number of fixed width after a mark. -/
theorem run_isRunChar_padded {c : Char} (hc : isRunChar c = true) (width n : Nat) :
    Run isRunChar (c :: padded width n) :=
  (run_cons _ _ _).2 ⟨hc, run_isRunChar (run_padded width n)⟩

theorem LocalDate.run_text (d : LocalDate) : Run isRunChar d.text :=
  run_append (run_append (run_isRunChar (run_padded 4 d.year))
    (run_isRunChar_padded (by decide) 2 d.month)) (run_isRunChar_padded (by decide) 2 d.day)

theorem LocalTime.run_text (t : LocalTime) : Run isRunChar t.text := by
  have hnanos : Run isRunChar (if t.nanos = 0 then [] else
      '.' :: ((padded 9 t.nanos).reverse.dropWhile (· = '0')).reverse) := by
    split
    · exact run_nil _
    · refine (run_cons _ _ _).2 ⟨by decide, fun c hc => run_isRunChar (run_padded 9 t.nanos) c ?_⟩
      exact List.mem_reverse.1 ((List.dropWhile_suffix _).mem (List.mem_reverse.1 hc))
  exact run_append (run_append (run_append (run_isRunChar (run_padded 2 t.hour))
    (run_isRunChar_padded (by decide) 2 t.minute)) (run_isRunChar_padded (by decide) 2 t.second))
    hnanos

theorem Offset.run_text (o : Offset) : Run isRunChar o.text := by
  cases o with
  | utc => exact run_of_all (by decide)
  | minutes n =>
    refine run_append ((run_cons _ _ _).2 ⟨?_, run_isRunChar (run_padded 2 _)⟩)
      (run_isRunChar_padded (by decide) 2 _)
    split <;> decide

theorem DateTime.run_text (d : DateTime) : Run isRunChar d.text := by
  cases d with
  | date d => exact d.run_text
  | time t => exact t.run_text
  | dateTime d t offset =>
    refine run_append (run_append d.run_text ((run_cons _ _ _).2 ⟨by decide, t.run_text⟩)) ?_
    cases offset with
    | none => exact run_nil _
    | some o => exact o.run_text

theorem padded_head (width n : Nat) (s : List Char) :
    ∃ c t, padded width n ++ s = c :: t ∧ isDigit c = true := by
  have hrun := run_padded width n
  obtain ⟨c, t, hcons⟩ : ∃ c t, padded width n = c :: t :=
    List.exists_cons_of_ne_nil (List.append_ne_nil_of_right_ne_nil _ (digitsOfNat_ne_nil n))
  rw [hcons] at hrun ⊢
  exact ⟨c, t ++ s, rfl, ((run_cons _ _ _).1 hrun).1⟩

theorem DateTime.text_head (d : DateTime) : ∃ c t, d.text = c :: t ∧ isDigit c = true := by
  cases d with
  | date d =>
    rw [DateTime.text, LocalDate.text, List.append_assoc]
    exact padded_head ..
  | time t =>
    rw [DateTime.text, LocalTime.text, List.append_assoc, List.append_assoc]
    exact padded_head ..
  | dateTime d t offset =>
    rw [DateTime.text, LocalDate.text, List.append_assoc, List.append_assoc, List.append_assoc]
    exact padded_head ..

theorem scalarOfRun?_dateTime {d : DateTime} (h : d.IsValid) :
    scalarOfRun? d.text = some (.dateTime d) := by
  obtain ⟨c, t, htext, hc⟩ := d.text_head
  obtain ⟨ht, hf, -⟩ := isDigit_classes hc
  have hread := dateTime?_text h
  rw [htext] at hread ⊢
  rw [scalarOfRun?_eq (fun heq => ht (List.cons.inj heq).1) (fun heq => hf (List.cons.inj heq).1),
    hread]

def Value.IsScalar : Value → Prop
  | .float x => x.isNaN = false
  | .dateTime d => d.IsValid
  | .array _ => False
  | .table _ => False
  | _ => True

theorem scalar_cases {v : Value} (h : v.IsScalar) (spread : Bool) :
    (∃ s, v = .string s) ∨
      v.chars spread ≠ [] ∧ Run isRunChar (v.chars spread) ∧
        scalarOfRun? (v.chars spread) = some v := by
  cases v with
  | string s => exact .inl ⟨s, rfl⟩
  | integer i =>
    obtain ⟨hsome, hrun⟩ := run_isRunChar_digitsOfInt i.toInt
    exact .inr ⟨hsome, hrun, scalarOfRun?_digitsOfInt i⟩
  | float x =>
    obtain ⟨hsome, hrun⟩ := run_isRunChar_tomlText h
    exact .inr ⟨hsome, hrun, scalarOfRun?_tomlText h⟩
  | boolean b =>
    have hword : ∀ b : Bool, (if b then "true" else "false").toList ≠ [] ∧
        (if b then "true" else "false").toList.all isRunChar = true := by decide
    refine .inr ⟨(hword b).1, run_of_all (hword b).2, ?_⟩
    cases b with
    | true => rfl
    | false => rfl
  | dateTime d =>
    obtain ⟨c, t, htext, -⟩ := d.text_head
    have hsome : d.text ≠ [] := by
      rw [htext]
      exact List.cons_ne_nil c t
    exact .inr ⟨hsome, d.run_text, scalarOfRun?_dateTime h⟩
  | array elements => exact h.elim
  | table entries => exact h.elim

theorem taken_scalar {v : Value} (h : v.IsScalar) (spread : Bool) {rest : List Char}
    (hrest : EndsValue rest) : taken (scalar (v.chars spread ++ rest)) = some (v, rest) := by
  rcases scalar_cases h spread with ⟨s, rfl⟩ | ⟨hsome, hrun, hread⟩
  · rw [Value.chars, taken_scalar_string _ hrest.stops.2, String.ofList_toList]
  · rw [taken_scalar_run hsome hrun hrest, hread]
    rfl

theorem chars_scalar_head {v : Value} (h : v.IsScalar) (spread : Bool) :
    ∃ c t, v.chars spread = c :: t ∧ (isRunChar c = true ∨ isQuote c = true) := by
  rcases scalar_cases h spread with ⟨s, rfl⟩ | ⟨hsome, hrun, -⟩
  · obtain ⟨c, t, htext, hc⟩ := (StringForm.ofText s.toList).write_head s.toList
    exact ⟨c, t, htext, .inr hc⟩
  · obtain ⟨c, t, htext⟩ := List.exists_cons_of_ne_nil hsome
    rw [htext] at hrun
    exact ⟨c, t, htext, .inl ((run_cons _ _ _).1 hrun).1⟩

theorem run_isPrinted_scalar {v : Value} (h : v.IsScalar) (spread : Bool) :
    Run isPrinted (v.chars spread) := by
  rcases scalar_cases h spread with ⟨s, rfl⟩ | ⟨-, hrun, -⟩
  · exact run_isPrinted_stringText s.toList
  · exact fun c hc => isPrinted_of_isRunChar (hrun c hc)

end Sift.Toml

import Sift.Constraint
import Sift.Proofs.CheckedReading

/-!
# Numeric texts

A numeric text is a number with white space around it. Its grammar has a sign, a mantissa and
an exponent; the digits may be missing on one side of the point but not on both. The reader of
decimals accepts exactly these texts, and so does a scan of their bytes by indices, which never
goes behind the last byte.

`IsWhole` is a whole number with an optional sign, and `Parts` are the parts of a number that
a text may begin with.
-/

namespace Sift.Grammar

open Sift.Text

/-- The mark of a class in front of a text, or nothing if the text does not begin with one. -/
inductive Marked (p : Char → Bool) (after : List Char) : List Char → Prop
  | absent (h : Stops p after) : Marked p after []
  | present {c : Char} (h : p c = true) : Marked p after [c]

theorem exists_marked (p : Char → Bool) (s : List Char) :
    ∃ mark after, s = mark ++ after ∧ Marked p after mark := by
  cases s with
  | nil => exact ⟨[], [], rfl, .absent trivial⟩
  | cons c s =>
    cases hc : p c with
    | true => exact ⟨[c], s, rfl, .present hc⟩
    | false => exact ⟨[], c :: s, rfl, .absent hc⟩

def isSign (c : Char) : Bool := c = '+' || c = '-'

def isPoint (c : Char) : Bool := c = '.'

def isExponentMark (c : Char) : Bool := c = 'e' || c = 'E'

theorem Marked.isAscii {p : Char → Bool} (hp : Narrow p) {mark after : List Char}
    (h : Marked p after mark) : Run isAscii mark := by
  cases h with
  | absent => exact run_nil _
  | present hc => exact List.forall_mem_singleton.2 (hp _ hc)

theorem takeSign_append {sign after : List Char} (h : Marked isSign after sign) :
    takeSign (sign ++ after) = (decide (sign = ['-']), after) := by
  cases h with
  | absent h =>
    cases after with
    | nil => rfl
    | cons c after =>
      have hc : c ≠ '+' ∧ c ≠ '-' := by simpa [isSign] using h
      simp [takeSign, hc]
  | present h =>
    simp only [isSign, Bool.or_eq_true, decide_eq_true_eq] at h
    rcases h with rfl | rfl <;> rfl

def IsSign (s : List Char) : Prop := s = [] ∨ s = ['+'] ∨ s = ['-']

def IsDigits (s : List Char) : Prop := s ≠ [] ∧ Run isDigit s

def IsWhole (s : List Char) (n : Int) : Prop :=
  ∃ sign digits, s = sign ++ digits ∧ IsSign sign ∧ IsDigits digits ∧
    n = wholeNumber (decide (sign = ['-'])) digits

inductive IsMantissa : List Char → Prop
  | whole {digits : List Char} (h : IsDigits digits) : IsMantissa digits
  | pointed {digits fraction : List Char} (h : IsDigits digits) (h' : Run isDigit fraction) :
      IsMantissa (digits ++ '.' :: fraction)
  | fraction {fraction : List Char} (h : IsDigits fraction) : IsMantissa ('.' :: fraction)

inductive IsExponent : List Char → Prop
  | absent : IsExponent []
  | present {mark : Char} {sign digits : List Char} (hmark : mark = 'e' ∨ mark = 'E')
      (hsign : IsSign sign) (h : IsDigits digits) : IsExponent (mark :: (sign ++ digits))

def IsNumber (s : List Char) : Prop :=
  ∃ sign mantissa exponent, s = sign ++ (mantissa ++ exponent) ∧ IsSign sign ∧
    IsMantissa mantissa ∧ IsExponent exponent

theorem Marked.isSign {sign after : List Char} (h : Marked isSign after sign) : IsSign sign := by
  cases h with
  | absent => exact .inl rfl
  | present h =>
    simp only [Grammar.isSign, Bool.or_eq_true, decide_eq_true_eq] at h
    rcases h with rfl | rfl
    · exact .inr (.inl rfl)
    · exact .inr (.inr rfl)

theorem IsSign.marked {sign after : List Char} (h : IsSign sign) (hend : Stops isSign after) :
    Marked Grammar.isSign after sign := by
  rcases h with rfl | rfl | rfl
  · exact .absent hend
  · exact .present rfl
  · exact .present rfl

theorem stops_of_run {p q : Char → Bool} {s : List Char} (h : Run p s)
    (hpq : ∀ c, p c = true → q c = false) : Stops q s := by
  cases s with
  | nil => exact trivial
  | cons c s => exact hpq c ((run_cons _ _ _).1 h).1

theorem ne_of_isDigit {c x : Char} (hc : isDigit c = true) (hx : isDigit x = false) : c ≠ x := by
  rintro rfl
  rw [hc] at hx
  cases hx

theorem isSign_of_isDigit (c : Char) (h : isDigit c = true) : isSign c = false := by
  have hplus := ne_of_isDigit h (show isDigit '+' = false by decide)
  have hminus := ne_of_isDigit h (show isDigit '-' = false by decide)
  simp [isSign, hplus, hminus]

theorem IsDigits.stops {p : Char → Bool} {digits : List Char} (h : IsDigits digits)
    (hp : ∀ c, isDigit c = true → p c = false) (after : List Char) : Stops p (digits ++ after) :=
  stops_append h.1 (stops_of_run h.2 hp)

theorem intOfText?_append {sign after : List Char} (h : Marked isSign after sign) :
    intOfText? (sign ++ after) = if after ≠ [] && after.all isDigit then
      some (wholeNumber (decide (sign = ['-'])) after) else none := by
  rw [intOfText?, takeSign_append h]
  rfl

theorem intOfText?_eq_some_iff {s : List Char} {n : Int} :
    intOfText? s = some n ↔ IsWhole s n := by
  constructor
  · intro h
    obtain ⟨sign, after, rfl, hsign⟩ := exists_marked isSign s
    rw [intOfText?_append hsign] at h
    obtain ⟨hdigits, hn⟩ := Option.ite_none_right_eq_some.1 h
    simp only [Bool.and_eq_true, decide_eq_true_eq] at hdigits
    exact ⟨sign, after, rfl, hsign.isSign, ⟨hdigits.1, List.all_eq_true.1 hdigits.2⟩,
      (Option.some.inj hn).symm⟩
  · rintro ⟨sign, digits, rfl, hsign, hdigits, rfl⟩
    have hend := hdigits.stops isSign_of_isDigit []
    rw [List.append_nil] at hend
    rw [intOfText?_append (hsign.marked hend)]
    simp [hdigits.1, all_isDigit hdigits.2]

theorem isSome_exponentOfText?_of_stops {s : List Char} (h : Stops isExponentMark s) :
    (Decimal.exponentOfText? s).isSome = decide (s = []) := by
  cases s with
  | nil => rfl
  | cons c s =>
    have hc : isExponentMark c = false := h
    rw [isExponentMark] at hc
    simp [Decimal.exponentOfText?, hc]

theorem isSome_exponentOfText?_of_mark {c : Char} (hc : isExponentMark c = true)
    {sign digits after : List Char} (hsign : Marked isSign (digits ++ after) sign)
    (hdigits : Run isDigit digits) (hend : Stops isDigit after) :
    (Decimal.exponentOfText? (c :: (sign ++ (digits ++ after)))).isSome =
      (decide (digits ≠ []) && decide (after = [])) := by
  rw [isExponentMark] at hc
  rw [Decimal.exponentOfText?, if_pos hc, intOfText?_append hsign]
  cases after with
  | nil => cases digits <;> simp [all_isDigit hdigits]
  | cons d after => simp [show isDigit d = false from hend]

theorem isSome_exponentOfText?_iff (s : List Char) :
    (Decimal.exponentOfText? s).isSome = true ↔ IsExponent s := by
  constructor
  · intro h
    cases s with
    | nil => exact .absent
    | cons c s =>
      simp only [Decimal.exponentOfText?, Bool.or_eq_true, decide_eq_true_eq] at h
      split at h
      · next hmark =>
        obtain ⟨n, hn⟩ := Option.isSome_iff_exists.1 h
        obtain ⟨sign, digits, rfl, hsign, hdigits, -⟩ := intOfText?_eq_some_iff.1 hn
        exact .present hmark hsign hdigits
      · cases h
  · intro h
    cases h with
    | absent => rfl
    | present hmark hsign hdigits =>
      have hread := intOfText?_eq_some_iff.2 ⟨_, _, rfl, hsign, hdigits, rfl⟩
      rw [Decimal.exponentOfText?, if_pos (by simpa using hmark), hread, Option.isSome_some]

/-- The parts of a number that a text may begin with, each as long as it can be. -/
structure Parts (s sign whole point fraction rest : List Char) : Prop where
  text : s = sign ++ (whole ++ (point ++ (fraction ++ rest)))
  marked_sign : Marked isSign (whole ++ (point ++ (fraction ++ rest))) sign
  run_whole : Run isDigit whole
  whole_ends : Stops isDigit (point ++ (fraction ++ rest))
  marked_point : Marked isPoint (fraction ++ rest) point
  run_fraction : Run isDigit fraction
  fraction_ends : Stops isDigit rest
  no_fraction : point = [] → fraction = []

variable {s sign whole point fraction rest : List Char}

theorem exists_parts (s : List Char) :
    ∃ sign whole point fraction rest, Parts s sign whole point fraction rest := by
  obtain ⟨sign, unsigned, rfl, hsign⟩ := exists_marked isSign s
  obtain ⟨whole, after, rfl, hwhole, hend⟩ := exists_run_append isDigit unsigned
  obtain ⟨point, after, rfl, hpoint⟩ := exists_marked isPoint after
  cases hpoint with
  | absent h =>
    exact ⟨sign, whole, [], [], after, rfl, hsign, hwhole, hend, .absent h, run_nil _, hend,
      fun _ => rfl⟩
  | present h =>
    obtain ⟨fraction, rest, rfl, hfraction, hend'⟩ := exists_run_append isDigit after
    exact ⟨sign, whole, _, fraction, rest, rfl, hsign, hwhole, hend, .present h, hfraction, hend',
      fun hnone => absurd hnone (List.cons_ne_nil _ _)⟩

/-- The parts make up a number if there are digits on one side of the point and nothing but an
exponent comes after them. -/
theorem Parts.isSome_ofText? (h : Parts s sign whole point fraction rest) :
    (Decimal.ofText? s).isSome =
      (decide (whole ≠ [] ∨ fraction ≠ []) && (Decimal.exponentOfText? rest).isSome) := by
  have hread : Decimal.ofText? s = if whole = [] && fraction = [] then none else
      (Decimal.exponentOfText? rest).map fun e =>
        ⟨decide (sign = ['-']), natOfDigits (whole ++ fraction), e - fraction.length⟩ := by
    obtain ⟨rfl, hsign, hwhole, hend, hpoint, hfraction, hend', hnone⟩ := h
    rw [Decimal.ofText?, takeSign_append hsign]
    simp only [takeWhile_run hwhole hend, dropWhile_run hwhole hend]
    cases hpoint with
    | present hc =>
      obtain rfl := of_decide_eq_true hc
      simp only [List.cons_append, List.nil_append, takeWhile_run hfraction hend',
        dropWhile_run hfraction hend']
    | absent hc =>
      obtain rfl := hnone rfl
      cases rest with
      | nil => rfl
      | cons c rest =>
        have hc : c ≠ '.' := of_decide_eq_false hc
        rw [List.nil_append, List.nil_append]
        split
        · next heq => exact absurd (List.cons.inj heq).1 hc
        · rfl
  rw [hread]
  by_cases hnone : whole = [] ∧ fraction = []
  · simp [hnone]
  · have hsome := Decidable.not_and_iff_not_or_not.1 hnone
    rw [if_neg (by simpa using hnone), Option.isSome_map, decide_eq_true hsome, Bool.true_and]

theorem Parts.isNumber (h : Parts s sign whole point fraction rest)
    (hsome : whole ≠ [] ∨ fraction ≠ []) (hrest : IsExponent rest) : IsNumber s := by
  obtain ⟨rfl, hsign, hwhole, -, hpoint, hfraction, -, hnone⟩ := h
  refine ⟨sign, whole ++ (point ++ fraction), rest, by simp only [List.append_assoc],
    hsign.isSign, ?_, hrest⟩
  cases hpoint with
  | absent =>
    obtain rfl := hnone rfl
    have hdigits : IsDigits whole := ⟨hsome.resolve_right (· rfl), hwhole⟩
    rw [List.append_nil, List.append_nil]
    exact .whole hdigits
  | present hc =>
    obtain rfl := of_decide_eq_true hc
    by_cases hempty : whole = []
    · rw [hempty]
      exact .fraction ⟨hsome.resolve_left (· hempty), hfraction⟩
    · exact .pointed ⟨hempty, hwhole⟩ hfraction

theorem IsExponent.stops (h : IsExponent rest) : Stops isDigit rest ∧ Stops isPoint rest := by
  cases h with
  | absent => exact ⟨trivial, trivial⟩
  | present hmark => rcases hmark with rfl | rfl <;> exact ⟨by simp; decide, by simp; decide⟩

theorem IsNumber.exists_parts (h : IsNumber s) :
    ∃ sign whole point fraction rest, Parts s sign whole point fraction rest ∧
      (whole ≠ [] ∨ fraction ≠ []) ∧ IsExponent rest := by
  obtain ⟨sign, mantissa, exponent, rfl, hsign, hmantissa, hexponent⟩ := h
  obtain ⟨hdigit, hpoint⟩ := hexponent.stops
  have hpointed (rest : List Char) : Stops isDigit ('.' :: rest) := by simp; decide
  have hunsigned (rest : List Char) : Stops isSign ('.' :: rest) := by simp; decide
  cases hmantissa with
  | whole h =>
    exact ⟨sign, mantissa, [], [], exponent,
      ⟨rfl, hsign.marked (h.stops isSign_of_isDigit _), h.2, hdigit, .absent hpoint, run_nil _,
        hdigit, fun _ => rfl⟩, .inl h.1, hexponent⟩
  | @pointed digits fraction h h' =>
    exact ⟨sign, digits, ['.'], fraction, exponent, ⟨by simp only [List.append_assoc]; rfl,
      hsign.marked (h.stops isSign_of_isDigit _), h.2, hpointed _, .present rfl, h', hdigit,
      fun hnone => absurd hnone (List.cons_ne_nil _ _)⟩, .inl h.1, hexponent⟩
  | @fraction fraction h =>
    exact ⟨sign, [], ['.'], fraction, exponent, ⟨rfl, hsign.marked (hunsigned _), run_nil _,
      hpointed _, .present rfl, h.2, hdigit,
      fun hnone => absurd hnone (List.cons_ne_nil _ _)⟩, .inr h.1, hexponent⟩

theorem isSome_ofText?_iff (s : List Char) :
    (Decimal.ofText? s).isSome = true ↔ IsNumber s := by
  constructor
  · intro h
    obtain ⟨sign, whole, point, fraction, rest, hparts⟩ := exists_parts s
    rw [hparts.isSome_ofText?, Bool.and_eq_true, decide_eq_true_eq,
      isSome_exponentOfText?_iff] at h
    exact hparts.isNumber h.1 h.2
  · intro h
    obtain ⟨sign, whole, point, fraction, rest, hparts, hsome, hrest⟩ := h.exists_parts
    rw [hparts.isSome_ofText?, decide_eq_true hsome, Bool.true_and]
    exact (isSome_exponentOfText?_iff rest).2 hrest

theorem exists_trim (s : List Char) : ∃ before after, s = before ++ (trim s ++ after) ∧
    Run isWhiteSpace before ∧ Run isWhiteSpace after := by
  obtain ⟨before, core, rfl, hbefore, hcore⟩ := exists_run_append isWhiteSpace s
  obtain ⟨back, middle, hback, hrun, hmiddle⟩ := exists_run_append isWhiteSpace core.reverse
  have hcore' : core = middle.reverse ++ back.reverse := by
    rw [← List.reverse_append, ← hback, List.reverse_reverse]
  have htrim : trim (before ++ core) = middle.reverse := by
    rw [trim, dropWhile_run hbefore hcore, hback, dropWhile_run hrun hmiddle]
  refine ⟨before, back.reverse, by rw [htrim, ← hcore'], hbefore, fun c hc => ?_⟩
  exact hrun c (List.mem_reverse.1 hc)

theorem trim_append {before text after : List Char} (hbefore : Run isWhiteSpace before)
    (hafter : Run isWhiteSpace after) (hsome : text ≠ [])
    (htext : ∀ c ∈ text, isWhiteSpace c = false) : trim (before ++ (text ++ after)) = text := by
  have hfront : Stops isWhiteSpace (text ++ after) := by
    obtain ⟨c, cs, rfl⟩ := List.exists_cons_of_ne_nil hsome
    exact htext c List.mem_cons_self
  have hback : Stops isWhiteSpace text.reverse := by
    obtain ⟨c, cs, hcs⟩ := List.exists_cons_of_ne_nil (mt List.reverse_eq_nil_iff.1 hsome)
    have hmem : c ∈ text := List.mem_reverse.1 (hcs ▸ List.mem_cons_self)
    rw [hcs]
    exact htext c hmem
  have hrun : Run isWhiteSpace after.reverse := fun c hc => hafter c (List.mem_reverse.1 hc)
  rw [trim, dropWhile_run hbefore hfront, List.reverse_append, dropWhile_run hrun hback,
    List.reverse_reverse]

def isNumberChar (c : Char) : Bool := isDigit c || isSign c || isPoint c || isExponentMark c

theorem isWhiteSpace_of_isNumberChar {c : Char} (h : isNumberChar c = true) :
    isWhiteSpace c = false := by
  have hmarks : ['+', '-', '.', 'e', 'E'].all (fun c => !isWhiteSpace c) = true := by decide
  simp only [isNumberChar, Bool.or_eq_true, or_assoc] at h
  rcases h with h | h
  · revert h
    apply of_isDigit
    decide
  · have hmem : c ∈ ['+', '-', '.', 'e', 'E'] := by
      simpa [isSign, isPoint, isExponentMark, or_assoc] using h
    simpa using List.all_eq_true.1 hmarks c hmem

theorem IsDigits.run {digits : List Char} (h : Run isDigit digits) : Run isNumberChar digits :=
  fun c hc => by simp [isNumberChar, h c hc]

theorem IsSign.run (h : IsSign sign) : Run isNumberChar sign := by
  rcases h with rfl | rfl | rfl
  · exact run_nil _
  · exact List.forall_mem_singleton.2 rfl
  · exact List.forall_mem_singleton.2 rfl

theorem IsMantissa.run {mantissa : List Char} (h : IsMantissa mantissa) :
    mantissa ≠ [] ∧ Run isNumberChar mantissa := by
  have hpoint {fraction : List Char} (h : Run isDigit fraction) :
      Run isNumberChar ('.' :: fraction) := (run_cons _ _ _).2 ⟨rfl, IsDigits.run h⟩
  cases h with
  | whole h => exact ⟨h.1, IsDigits.run h.2⟩
  | pointed h h' =>
    exact ⟨List.append_ne_nil_of_left_ne_nil h.1 _, run_append (IsDigits.run h.2) (hpoint h')⟩
  | fraction h => exact ⟨List.cons_ne_nil _ _, hpoint h.2⟩

theorem IsExponent.run {exponent : List Char} (h : IsExponent exponent) :
    Run isNumberChar exponent := by
  cases h with
  | absent => exact run_nil _
  | present hmark hsign hdigits =>
    refine (run_cons _ _ _).2 ⟨?_, run_append hsign.run (IsDigits.run hdigits.2)⟩
    rcases hmark with rfl | rfl <;> rfl

theorem IsNumber.run (h : IsNumber s) : s ≠ [] ∧ Run isNumberChar s := by
  obtain ⟨sign, mantissa, exponent, rfl, hsign, hmantissa, hexponent⟩ := h
  have hrun := run_append hsign.run (run_append hmantissa.run.2 hexponent.run)
  refine ⟨?_, hrun⟩
  exact List.append_ne_nil_of_right_ne_nil _ (List.append_ne_nil_of_left_ne_nil hmantissa.run.1 _)

end Sift.Grammar

namespace Sift.Checked

open Sift.Text Sift.Grammar

/-- The byte at a place, or none at the end. There is no result behind the end. -/
def byteAt? (bs : List Char) (i : Nat) : Option (Option Char) := (sliceFrom? bs i).map List.head?

def skipMark? (p : Char → Bool) (bs : List Char) (i : Nat) : Option Nat := do
  return if (← byteAt? bs i).any p then i + 1 else i

def skipDigits? (bs : List Char) (i : Nat) : Option Nat := do
  return i + countDigits (← sliceFrom? bs i)

/-- Step over the digits behind a point, if there is one between the two places. -/
def skipFraction? (bs : List Char) (whole point : Nat) : Option Nat :=
  if point = whole then some point else skipDigits? bs point

def exponentFrom? (bs : List Char) (i : Nat) : Option Bool := do
  let mark ← skipMark? isExponentMark bs i
  if mark = i then return i = bs.length
  else
    let sign ← skipMark? isSign bs mark
    let stop ← skipDigits? bs sign
    return stop ≠ sign && stop = bs.length

def isNumber? (bs : List Char) : Option Bool := do
  let sign ← skipMark? isSign bs 0
  let whole ← skipDigits? bs sign
  let point ← skipMark? isPoint bs whole
  let stop ← skipFraction? bs whole point
  if whole = sign && stop = point then return false
  else exponentFrom? bs stop

theorem narrow_isSign : Narrow isSign := (narrow_eq (by decide)).or (narrow_eq (by decide))

theorem narrow_isPoint : Narrow isPoint := narrow_eq (by decide)

theorem narrow_isExponentMark : Narrow isExponentMark :=
  (narrow_eq (by decide)).or (narrow_eq (by decide))

theorem sliceFrom?_bytes {front : List Char} (h : Run isAscii front) (after : List Char) :
    sliceFrom? (bytes (front ++ after)) front.length = some (bytes after) := by
  rw [bytes_append_of_run h, sliceFrom?_append]

variable {front after : List Char}

theorem eq_length_bytes_iff (h : Run isAscii front) (after : List Char) :
    front.length = (bytes (front ++ after)).length ↔ after = [] := by
  rw [length_bytes, byteLength_append, byteLength_of_run h, ← byteLength_eq_zero_iff]
  omega

theorem skipMark?_append {p : Char → Bool} (hp : Narrow p) (hfront : Run isAscii front)
    {mark : List Char} (h : Marked p after mark) :
    skipMark? p (bytes (front ++ (mark ++ after))) front.length =
      some (front ++ mark).length := by
  have hbyte : byteAt? (bytes (front ++ (mark ++ after))) front.length =
      some (bytes (mark ++ after)).head? := by
    rw [byteAt?, sliceFrom?_bytes hfront]
    rfl
  rw [skipMark?, hbyte, Option.bind_eq_bind, Option.bind_some, any_head?_bytes hp,
    List.length_append]
  cases h with
  | absent h =>
    cases after with
    | nil => rfl
    | cons c after => simp [show p c = false from h]
  | present h => simp [h]

theorem skipDigits?_append (hfront : Run isAscii front) {digits : List Char}
    (h : Run isDigit digits) (hend : Stops isDigit after) :
    skipDigits? (bytes (front ++ (digits ++ after))) front.length =
      some (front ++ digits).length := by
  rw [skipDigits?, sliceFrom?_bytes hfront, Option.bind_eq_bind, Option.bind_some, countDigits,
    takeWhile_bytes narrow_isDigit, takeWhile_run h hend, List.length_append]
  rfl

theorem exponentFrom?_append (hfront : Run isAscii front) (rest : List Char) :
    exponentFrom? (bytes (front ++ rest)) front.length =
      some (Decimal.exponentOfText? rest).isSome := by
  obtain ⟨mark, after, rfl, hmark⟩ := exists_marked isExponentMark rest
  rw [exponentFrom?, skipMark?_append narrow_isExponentMark hfront hmark]
  cases hmark with
  | absent h =>
    simp only [Option.bind_eq_bind, Option.bind_some, List.append_nil, if_true, List.nil_append,
      eq_length_bytes_iff hfront, isSome_exponentOfText?_of_stops h]
    rfl
  | @present c h =>
    obtain ⟨sign, after, rfl, hsign⟩ := exists_marked isSign after
    obtain ⟨digits, after, rfl, hdigits, hend⟩ := exists_run_append isDigit after
    have hmark := run_append hfront (List.forall_mem_singleton.2 (narrow_isExponentMark c h))
    have hboth := run_append hmark (hsign.isAscii narrow_isSign)
    have hall := run_append hboth (hdigits.isAscii narrow_isDigit)
    have hsign' := skipMark?_append narrow_isSign hmark hsign
    have hstop := skipDigits?_append hboth hdigits hend
    have hend' := eq_length_bytes_iff hall after
    have hmoved : (front ++ [c]).length ≠ front.length := by simp
    have hnone : (front ++ ([c] ++ (sign ++ digits))).length ≠ (front ++ ([c] ++ sign)).length ↔
        digits ≠ [] := by
      rw [ne_eq, ne_eq, ← List.length_eq_zero_iff]
      simp only [List.length_append]
      omega
    simp only [List.append_assoc] at hsign' hstop hend'
    simp only [Option.bind_eq_bind, Option.bind_some, hsign', hstop, if_neg hmoved, hend', hnone]
    rw [List.singleton_append, isSome_exponentOfText?_of_mark h hsign hdigits hend]
    rfl

/-- A scan by indices never goes behind the end, and accepts what the reader of decimals does. -/
theorem isNumber?_eq (s : List Char) :
    isNumber? (bytes s) = some (Decimal.ofText? s).isSome := by
  obtain ⟨sign, whole, point, fraction, rest, h⟩ := exists_parts s
  rw [h.isSome_ofText?]
  obtain ⟨rfl, hsign, hwhole, hend, hpoint, hfraction, hend', hnone⟩ := h
  have hrunSign := hsign.isAscii narrow_isSign
  have hrunWhole := run_append hrunSign (hwhole.isAscii narrow_isDigit)
  have hrunPoint := run_append hrunWhole (hpoint.isAscii narrow_isPoint)
  have hrunAll := run_append hrunPoint (hfraction.isAscii narrow_isDigit)
  have hsign' := skipMark?_append narrow_isSign (run_nil _) hsign
  have hwhole' := skipDigits?_append hrunSign hwhole hend
  have hpoint' := skipMark?_append narrow_isPoint hrunWhole hpoint
  have hfraction' := skipDigits?_append hrunPoint hfraction hend'
  have hexponent := exponentFrom?_append hrunAll rest
  simp only [List.nil_append, List.length_nil] at hsign'
  simp only [List.append_assoc] at hpoint' hfraction' hexponent
  have hstop : skipFraction? (bytes (sign ++ (whole ++ (point ++ (fraction ++ rest)))))
      (sign ++ whole).length (sign ++ (whole ++ point)).length =
        some (sign ++ (whole ++ (point ++ fraction))).length := by
    rw [skipFraction?]
    cases hpoint with
    | absent =>
      rw [hnone rfl, if_pos (by simp)]
      simp only [List.append_nil]
    | present => rw [if_neg (by simp), hfraction']
  have hempty : (sign ++ whole).length = sign.length ∧
      (sign ++ (whole ++ (point ++ fraction))).length = (sign ++ (whole ++ point)).length ↔
        ¬ (whole ≠ [] ∨ fraction ≠ []) := by
    rw [not_or, ne_eq, ne_eq, Decidable.not_not, Decidable.not_not, ← List.length_eq_zero_iff,
      ← List.length_eq_zero_iff]
    simp only [List.length_append]
    omega
  simp only [isNumber?, Option.bind_eq_bind, Option.bind_some, hsign', hwhole', hpoint', hstop,
    Bool.and_eq_true, decide_eq_true_eq, hempty]
  by_cases hsome : whole ≠ [] ∨ fraction ≠ []
  · rw [if_neg (not_not_intro hsome), hexponent, decide_eq_true hsome, Bool.true_and]
  · rw [if_pos hsome, decide_eq_false hsome, Bool.false_and]
    rfl

end Sift.Checked

namespace Sift

open Sift.Text Sift.Grammar

/-- A text is numeric if it is a number between white space. To find out takes a scan of the
bytes between the white space in which no index goes behind the last one. -/
theorem isNumericText_iff (s : String) :
    (isNumericText s = true ↔ IsNumber (trim s.toList)) ∧
      (isNumericText s = true ↔ ∃ before number after,
        s.toList = before ++ (number ++ after) ∧ Run isWhiteSpace before ∧
          Run isWhiteSpace after ∧ IsNumber number) ∧
      Checked.isNumber? (bytes (trim s.toList)) = some (isNumericText s) := by
  have hiff : isNumericText s = true ↔ IsNumber (trim s.toList) := isSome_ofText?_iff _
  refine ⟨hiff, hiff.trans ⟨fun h => ?_, ?_⟩, Checked.isNumber?_eq _⟩
  · obtain ⟨before, after, hs, hbefore, hafter⟩ := exists_trim s.toList
    exact ⟨before, _, after, hs, hbefore, hafter, h⟩
  · rintro ⟨before, number, after, hs, hbefore, hafter, hnumber⟩
    obtain ⟨hsome, hrun⟩ := hnumber.run
    have htext : ∀ c ∈ number, isWhiteSpace c = false :=
      fun c hc => isWhiteSpace_of_isNumberChar (hrun c hc)
    rwa [hs, trim_append hbefore hafter hsome htext]

end Sift

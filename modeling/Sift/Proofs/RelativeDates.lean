import Sift.Proofs.InstantMoves
import Sift.Proofs.ValueReading

/-!
# Relative dates

A number of units forward or back is read as the move by exactly so many steps of the unit,
for every number of digits and every spelling of the unit in upper and lower case. The text
of such a move is no absolute date, since a year is followed by a hyphen or a slash.

`IsUnit` is the name of a unit, and `LeadsTo` what a text of such a move leads to.
-/

namespace Sift.Time

open Sift.Text Sift.Grammar

def IsPlain (word : List Char) : Prop := word ≠ [] ∧ Run (fun c => !isWhiteSpace c) word

theorem isPlain_of_all {word : List Char} (hsome : word ≠ [])
    (hall : word.all (fun c => !isWhiteSpace c) = true) : IsPlain word :=
  ⟨hsome, List.all_eq_true.1 hall⟩

def joined : List (List Char) → List Char
  | [] => []
  | [word] => word
  | word :: others => word ++ ' ' :: joined others

theorem joined_cons {word : List Char} {others : List (List Char)} (h : others ≠ []) :
    joined (word :: others) = word ++ ' ' :: joined others := by
  obtain ⟨other, others, rfl⟩ := List.exists_cons_of_ne_nil h
  rfl

theorem words_joined {list : List (List Char)} (h : ∀ word ∈ list, IsPlain word) :
    words (joined list) = list := by
  induction list with
  | nil => rfl
  | cons word others ih =>
    obtain ⟨⟨hsome, hrun⟩, hothers⟩ := List.forall_mem_cons.1 h
    cases others with
    | nil => simp [joined, words, splitWhere_run hrun, hsome]
    | cons other others =>
      have hrest := ih hothers
      rw [joined_cons (List.cons_ne_nil _ _), words, splitWhere_append hrun (by decide),
        List.filter_cons_of_pos (by simpa using hsome)]
      exact congrArg (word :: ·) hrest

theorem map_joined {f : Char → Char} (hf : f ' ' = ' ') (list : List (List Char)) :
    (joined list).map f = joined (list.map (·.map f)) := by
  induction list with
  | nil => rfl
  | cons word others ih =>
    cases others with
    | nil => rfl
    | cons other others =>
      rw [joined_cons (List.cons_ne_nil _ _), List.map_append, List.map_cons, hf, ih,
        List.map_cons (l := other :: others), joined_cons (by simp)]

theorem IsPlain.stops {word : List Char} (h : IsPlain word) : Stops isWhiteSpace word := by
  obtain ⟨hsome, hrun⟩ := h
  obtain ⟨c, word, rfl⟩ := List.exists_cons_of_ne_nil hsome
  simpa using ((run_cons _ _ _).1 hrun).1

theorem IsPlain.reverse {word : List Char} (h : IsPlain word) : IsPlain word.reverse :=
  ⟨by simpa using h.1, fun c hc => h.2 c (List.mem_reverse.1 hc)⟩

/-- Neither end of joined words is white space. -/
theorem stops_joined {list : List (List Char)} (h : ∀ word ∈ list, IsPlain word) :
    Stops isWhiteSpace (joined list) ∧ Stops isWhiteSpace (joined list).reverse := by
  induction list with
  | nil => exact ⟨trivial, trivial⟩
  | cons word others ih =>
    obtain ⟨hword, hothers⟩ := List.forall_mem_cons.1 h
    cases others with
    | nil => exact ⟨hword.stops, hword.reverse.stops⟩
    | cons other others =>
      have hsome : (joined (other :: others)).reverse ≠ [] := by
        obtain ⟨hother, -⟩ := List.forall_mem_cons.1 hothers
        cases others <;> simp [joined, hother.1]
      rw [joined_cons (List.cons_ne_nil _ _), List.reverse_append, List.reverse_cons,
        List.append_assoc]
      exact ⟨stops_append hword.1 hword.stops, stops_append hsome (ih hothers).2⟩

def isSeparator (c : Char) : Bool := c = '-' || c = '/'

theorem exists_of_mem_patterns {pattern : List PatternItem} (h : pattern ∈ patterns) :
    ∃ c items, isSeparator c = true ∧ pattern = .year :: .exactly c :: items := by
  simp only [patterns, datePattern, List.mem_cons, List.not_mem_nil, or_false] at h
  rcases h with rfl | rfl | rfl | rfl | rfl | rfl <;> exact ⟨_, _, by decide, rfl⟩

/-- A text is no absolute date if no separator follows its first digits. -/
theorem absolute?_eq_none {s : List Char} (hcount : s.head? ≠ some '@')
    (hzoned : ∀ n rest, takeDigits 4 s = some (n, rest) → Stops isSeparator rest)
    (hyear : ∀ y rest, takeYear s = some (y, rest) → Stops isSeparator rest) :
    absolute? s = none := by
  have hzoned' : zonedOfText? s = none := by
    unfold zonedOfText?
    cases htake : takeDigits 4 s with
    | none => rfl
    | some p =>
      obtain ⟨n, rest⟩ := p
      have hrest := hzoned n rest htake
      have hchar : takeChar ['-'] rest = none := by
        cases rest with
        | nil => rfl
        | cons c rest =>
          have hc : c ≠ '-' := by rintro rfl; exact Bool.false_ne_true hrest.symm
          simp [takeChar, hc]
      simp [hchar]
  have hpattern : patterns.findSome? (matchesPattern? s) = none := by
    rw [List.findSome?_eq_none_iff]
    intro pattern hmem
    obtain ⟨c, items, hc, rfl⟩ := exists_of_mem_patterns hmem
    rw [matchesPattern?, matchPattern]
    cases htake : takeYear s with
    | none => rfl
    | some p =>
      obtain ⟨y, rest⟩ := p
      have hrest := hyear y rest htake
      cases rest with
      | nil => rfl
      | cons d rest =>
        have hd : d ≠ c := by
          rintro rfl
          exact absurd hc (Bool.eq_false_iff.1 hrest)
        simp [matchPattern, hd]
  unfold absolute?
  split
  · next => simp at hcount
  · next => rw [hzoned', hpattern, Option.none_or]

/-- A digit is none of the characters that decide how a date is read. -/
theorem isDigit_classes {c : Char} (h : isDigit c = true) :
    isWhiteSpace c = false ∧ isSeparator c = false ∧ c ∉ ['@', '+', '-', 'l', 'n'] ∧
      lowerChar c = c := by
  revert h
  apply of_isDigit
  decide

theorem lower_digits {digits : List Char} (h : Run isDigit digits) :
    digits.map lowerChar = digits :=
  (List.map_congr_left fun c hc => (isDigit_classes (h c hc)).2.2.2).trans (List.map_id' digits)

theorem plain_pair {first second : List Char} (h : IsPlain first) (h' : IsPlain second) :
    ∀ word ∈ [first, second], IsPlain word :=
  List.forall_mem_cons.2 ⟨h, List.forall_mem_singleton.2 h'⟩

theorem isPlain_digits {digits : List Char} (hsome : digits ≠ []) (h : Run isDigit digits) :
    IsPlain digits := ⟨hsome, fun c hc => by simp [(isDigit_classes (h c hc)).1]⟩

/-- After some of the digits of a number come its other digits or the space. -/
theorem stops_drop {digits s : List Char} (h : Run isDigit digits) {n : Nat}
    (hn : n ≤ digits.length) : Stops isSeparator ((digits ++ ' ' :: s).drop n) := by
  rw [List.drop_append_of_le_length hn]
  cases hdrop : digits.drop n with
  | nil => exact (by decide : isSeparator ' ' = false)
  | cons c rest =>
    have hmem : c ∈ digits := List.mem_of_mem_drop (hdrop ▸ List.mem_cons_self)
    exact (isDigit_classes (h c hmem)).2.1

theorem length_takeWhile_take_le (p : Char → Bool) (s : List Char) (n : Nat) :
    ((s.take n).takeWhile p).length ≤ (s.takeWhile p).length := by
  induction s generalizing n with
  | nil => simp
  | cons c s ih =>
    cases n with
    | zero => exact Nat.zero_le _
    | succ n =>
      rw [List.take_succ_cons]
      by_cases hc : p c = true
      · simpa [hc] using ih n
      · simp [hc]

/-- Only the digits in front can be taken as the digits of a year. -/
theorem length_digits_le {digits s : List Char} (h : Run isDigit digits) (n : Nat) :
    (((digits ++ ' ' :: s).take n).takeWhile isDigit).length ≤ digits.length := by
  have hspace : Stops isDigit (' ' :: s) := (by decide : isDigit ' ' = false)
  calc (((digits ++ ' ' :: s).take n).takeWhile isDigit).length
      ≤ ((digits ++ ' ' :: s).takeWhile isDigit).length := length_takeWhile_take_le ..
    _ = digits.length := by rw [takeWhile_run h hspace]

theorem stops_takeDigits {digits s rest : List Char} {n : Nat} (h : Run isDigit digits)
    (htake : takeDigits 4 (digits ++ ' ' :: s) = some (n, rest)) : Stops isSeparator rest := by
  have hcount := length_digits_le (s := s) h 4
  simp only [takeDigits, Option.ite_none_right_eq_some, Option.some.injEq, Prod.mk.injEq] at htake
  obtain ⟨⟨hlength, hall⟩, -, rfl⟩ := htake
  have hrun := takeWhile_run (List.all_eq_true.1 hall) (stops_nil isDigit)
  rw [List.append_nil] at hrun
  rw [hrun, hlength] at hcount
  exact stops_drop h hcount

theorem stops_takeNumber {digits s rest : List Char} {n : Nat} (h : Run isDigit digits)
    (hblank : Stops isWhiteSpace (digits ++ ' ' :: s))
    (htake : takeNumber 4 (digits ++ ' ' :: s) = some (n, rest)) : Stops isSeparator rest := by
  have hskip : (digits ++ ' ' :: s).dropWhile isWhiteSpace = digits ++ ' ' :: s :=
    dropWhile_run (run_nil _) hblank
  simp only [takeNumber, hskip, Option.ite_none_left_eq_some, Option.some.injEq,
    Prod.mk.injEq] at htake
  obtain ⟨-, -, rfl⟩ := htake
  exact stops_drop h (length_digits_le h 4)

/-- A number with a space after it is no year with a separator after it. -/
theorem absolute?_digits {digits s : List Char} (hsome : digits ≠ []) (h : Run isDigit digits) :
    absolute? (digits ++ ' ' :: s) = none := by
  obtain ⟨d, ds, rfl⟩ := List.exists_cons_of_ne_nil hsome
  obtain ⟨hblank, -, hnot, -⟩ := isDigit_classes ((run_cons _ _ _).1 h).1
  simp only [List.mem_cons, List.not_mem_nil, or_false, not_or] at hnot
  refine absolute?_eq_none ?_ (fun n rest => stops_takeDigits h) fun y rest htake => ?_
  · simpa using hnot.1
  · have hskip : (d :: ds ++ ' ' :: s).dropWhile isWhiteSpace = d :: ds ++ ' ' :: s :=
      dropWhile_run (run_nil _) hblank
    simp only [takeYear, hskip] at htake
    split at htake
    · next heq => exact absurd (List.cons.inj heq).1 hnot.2.2.1
    · next heq => exact absurd (List.cons.inj heq).1 hnot.2.1
    · obtain ⟨⟨n, rest'⟩, hnumber, hsame⟩ := Option.map_eq_some_iff.1 htake
      obtain ⟨-, rfl⟩ := Prod.mk.inj hsame
      exact stops_takeNumber h hblank hnumber

theorem absolute?_signed {sign : Char} (hsign : sign = '+' ∨ sign = '-') {digits s : List Char}
    (h : Run isDigit digits) : absolute? (sign :: digits ++ ' ' :: s) = none := by
  have hspace : Stops isDigit (' ' :: s) := (by decide : isDigit ' ' = false)
  have hnot : isDigit sign = false ∧ isWhiteSpace sign = false ∧ sign ≠ '@' := by
    rcases hsign with rfl | rfl <;> decide
  refine absolute?_eq_none ?_ (fun n rest htake => ?_) fun y rest htake => ?_
  · simpa using hnot.2.2
  · simp [takeDigits, hnot.1] at htake
  · rw [List.cons_append] at htake
    have hskip : (sign :: (digits ++ ' ' :: s)).dropWhile isWhiteSpace =
        sign :: (digits ++ ' ' :: s) := dropWhile_run (run_nil _) hnot.2.1
    have hrest : Stops isSeparator (' ' :: s) := (by decide : isSeparator ' ' = false)
    have hdigits := takeWhile_run h hspace
    have hdrop : (digits ++ ' ' :: s).drop digits.length = ' ' :: s := List.drop_left
    rcases hsign with rfl | rfl
    all_goals
      simp only [takeYear, hskip, hdigits, hdrop, Option.ite_none_left_eq_some, Option.some.injEq,
        Prod.mk.injEq] at htake
      obtain ⟨-, -, rfl⟩ := htake
      exact hrest

/-- A word that begins with no digit and no sign begins no year. -/
theorem absolute?_word {c : Char} (hc : c = 'l' ∨ c = 'n') (s : List Char) :
    absolute? (c :: s) = none := by
  have hnot : isDigit c = false ∧ isWhiteSpace c = false ∧ c ∉ ['@', '+', '-'] := by
    rcases hc with rfl | rfl <;> decide
  simp only [List.mem_cons, List.not_mem_nil, or_false, not_or] at hnot
  refine absolute?_eq_none ?_ (fun n rest htake => ?_) fun y rest htake => ?_
  · simpa using hnot.2.2.1
  · simp [takeDigits, hnot.1] at htake
  · have hskip : (c :: s).dropWhile isWhiteSpace = c :: s := dropWhile_run (run_nil _) hnot.2.1
    simp only [takeYear, hskip] at htake
    split at htake
    · next heq => exact absurd (List.cons.inj heq).1 hnot.2.2.2.2
    · next heq => exact absurd (List.cons.inj heq).1 hnot.2.2.2.1
    · simp [takeNumber, hskip, hnot.1] at htake

def unitNames : List (String × Step) :=
  [ ("sec", .seconds 1), ("second", .seconds 1), ("min", .seconds 60), ("minute", .seconds 60),
    ("hour", .seconds 3600), ("day", .seconds 86400), ("week", .seconds 604800),
    ("fortnight", .seconds 1209600), ("month", .months 1), ("year", .months 12) ]

/-- The name of a unit in any letter case, in the singular or with one `s` after it. -/
def IsUnit (word : List Char) (step : Step) : Prop :=
  ∃ name, (name, step) ∈ unitNames ∧
    (word.map lowerChar = name.toList ∨ word.map lowerChar = name.toList ++ ['s'])

theorem IsUnit.exists_plural {word : List Char} {step : Step} (h : IsUnit word step) :
    ∃ name plural, (name, step) ∈ unitNames ∧ plural ∈ [[], ['s']] ∧
      word.map lowerChar = name.toList ++ plural := by
  obtain ⟨name, hmem, hword | hword⟩ := h
  · exact ⟨name, [], hmem, by simp, by rw [hword, List.append_nil]⟩
  · exact ⟨name, ['s'], hmem, by simp, hword⟩

theorem ofText?_of_isUnit {word : List Char} {step : Step} (h : IsUnit word step) :
    ∃ multiple base, TimeUnit.ofText? (word.map lowerChar) = some (multiple, base) ∧
      base.step multiple = step ∧ 0 < step.count := by
  have hall : ∀ entry ∈ unitNames, 0 < entry.2.count ∧ ∀ plural ∈ [[], ['s']],
      (TimeUnit.ofText? (entry.1.toList ++ plural)).map (fun unit => unit.2.step unit.1) =
        some entry.2 := by decide +kernel
  obtain ⟨name, plural, hmem, hplural, hword⟩ := h.exists_plural
  obtain ⟨hpos, hname⟩ := hall _ hmem
  have hread : (TimeUnit.ofText? (word.map lowerChar)).map (fun unit => unit.2.step unit.1) =
      some step := by
    rw [hword]
    exact hname plural hplural
  obtain ⟨⟨multiple, base⟩, hunit, hstep⟩ := Option.map_eq_some_iff.1 hread
  exact ⟨multiple, base, hunit, hstep, hpos⟩

theorem lowerChar_of_isWhiteSpace {c : Char} (h : isWhiteSpace c = true) : lowerChar c = c := by
  have hA : ('A' : Char).val.toNat = 65 := rfl
  have hZ : ('Z' : Char).val.toNat = 90 := rfl
  have hvalue : c.toNat = c.val.toNat := rfl
  simp only [isWhiteSpace, Bool.or_eq_true, Bool.and_eq_true, decide_eq_true_eq] at h
  unfold lowerChar
  simp only [Bool.and_eq_true, decide_eq_true_eq, Char.le_def, UInt32.le_iff_toNat_le, hA, hZ]
  rw [if_neg (by omega), if_neg (by omega)]

theorem isPlain_of_isUnit {word : List Char} {step : Step} (h : IsUnit word step) :
    IsPlain word ∧ IsPlain (word.map lowerChar) := by
  have hall : ∀ entry ∈ unitNames, ∀ plural ∈ [[], ['s']], entry.1.toList ++ plural ≠ [] ∧
      (entry.1.toList ++ plural).all (fun c => !isWhiteSpace c) = true := by decide +kernel
  obtain ⟨name, plural, hmem, hplural, hword⟩ := h.exists_plural
  obtain ⟨hsome, hnoBlank⟩ := hall _ hmem plural hplural
  have hlower : IsPlain (word.map lowerChar) := by
    rw [hword]
    exact isPlain_of_all hsome hnoBlank
  refine ⟨⟨fun hnil => hlower.1 (by rw [hnil]; rfl), fun c hc => ?_⟩, hlower⟩
  have hplain := hlower.2 (lowerChar c) (List.mem_map_of_mem hc)
  cases hblank : isWhiteSpace c with
  | false => exact congrArg not hblank
  | true => rwa [lowerChar_of_isWhiteSpace hblank] at hplain

variable {now : Instant} {digits unit : List Char}

/-- A text of plain words that is no absolute date is read as a relative date. -/
theorem read?_joined (now : Instant) (list : List (List Char)) (hplain : ∀ word ∈ list, IsPlain word)
    (hsome : list ≠ []) (habsolute : absolute? (joined list) = none) :
    read? now (String.ofList (joined list)) =
      relative? now (joined (list.map (·.map lowerChar))) := by
  have hjoined : joined list ≠ [] := by
    intro hnil
    have hwords := words_joined hplain
    rw [hnil] at hwords
    exact hsome hwords.symm
  obtain ⟨hfront, hback⟩ := stops_joined hplain
  simp only [read?, String.toList_ofList, trim_eq_self hfront hback, if_neg hjoined, habsolute,
    Option.none_or, map_joined (by decide : lowerChar ' ' = ' ')]

theorem relative?_signed {sign : Char} (hsign : sign = '+' ∨ sign = '-')
    (hplain : ∀ word ∈ [sign :: digits, unit], IsPlain word) :
    relative? now (joined [sign :: digits, unit]) =
      (int64OfText? (sign :: digits)).bind (shift? now · unit) := by
  have hstart : startsWithSign (sign :: digits) = true := by
    rcases hsign with rfl | rfl <;> rfl
  have hword : ∀ word : String, word.toList.head? ≠ some sign →
      String.ofList (sign :: digits) ≠ word := by
    rintro word hhead rfl
    simp at hhead
  simp only [relative?, words_joined hplain]
  split
  · next heq => exact absurd heq (hword _ (by rcases hsign with rfl | rfl <;> decide))
  · next heq => exact absurd heq (hword _ (by rcases hsign with rfl | rfl <;> decide))
  · rw [if_pos hstart]

theorem relative?_next (hplain : ∀ word ∈ ["next".toList, unit], IsPlain word) :
    relative? now (joined ["next".toList, unit]) = shift? now 1 unit := by
  simp only [relative?, words_joined hplain]
  rfl

theorem relative?_last (hplain : ∀ word ∈ ["last".toList, unit], IsPlain word) :
    relative? now (joined ["last".toList, unit]) = shift? now (-1) unit := by
  simp only [relative?, words_joined hplain]
  rfl

theorem relative?_ago (hplain : ∀ word ∈ [digits, unit, "ago".toList], IsPlain word) :
    relative? now (joined [digits, unit, "ago".toList]) =
      (int64OfText? digits).bind fun forward =>
        (int64? (-forward.toInt)).bind (shift? now · unit) := by
  simp only [relative?, words_joined hplain]
  rfl

/-- What a text leads to: exactly the instant that so many steps reach, and no instant only if
the calendar ends before. -/
def LeadsTo (now : Instant) (n : Int) (step : Step) (result : Option Instant) : Prop :=
  (∀ t, result = some t ↔ Reaches now n t step) ∧ (result.isSome = true ↔ InCalendar now n step)

theorem leadsTo_of_iff (h : now.isLeapSecond = false) {n : Int} {step : Step}
    {result : Option Instant} (hresult : ∀ t, result = some t ↔ Reaches now n t step) :
    LeadsTo now n step result := by
  refine ⟨hresult, ?_⟩
  rw [Option.isSome_iff_exists, ← exists_reaches_iff h]
  simp only [hresult]

theorem int64OfText?_signed (negative : Bool) (hsome : digits ≠ []) (h : Run isDigit digits) :
    int64OfText? (signed negative digits) = int64? (wholeNumber negative digits) := by
  rw [int64OfText?, intOfText?_signed hsome h, Option.bind_some]

theorem int64OfText?_plus (hsome : digits ≠ []) (h : Run isDigit digits) :
    int64OfText? ('+' :: digits) = int64? (natOfDigits digits) := by
  simp [int64OfText?, intOfText?, takeSign, hsome, all_isDigit h]

variable {word : List Char} {step : Step}

theorem read?_signed (now : Instant) {sign : Char} (hsign : sign = '+' ∨ sign = '-')
    (digits : List Char) (h : Run isDigit digits) (hunit : IsUnit word step) :
    read? now (String.ofList (sign :: digits ++ ' ' :: word)) =
      (int64OfText? (sign :: digits)).bind (shift? now · (word.map lowerChar)) := by
  obtain ⟨hword, hlower⟩ := isPlain_of_isUnit hunit
  have hamount : IsPlain (sign :: digits) := by
    refine ⟨List.cons_ne_nil _ _, (run_cons _ _ _).2 ⟨?_, fun c hc => ?_⟩⟩
    · rcases hsign with rfl | rfl <;> decide
    · simp [(isDigit_classes (h c hc)).1]
  have hsame : (sign :: digits).map lowerChar = sign :: digits := by
    rw [List.map_cons, lower_digits h]
    rcases hsign with rfl | rfl <;> rfl
  have hread := read?_joined now [sign :: digits, word]
    (plain_pair hamount hword) (List.cons_ne_nil _ _) (absolute?_signed hsign h)
  rw [List.map_cons, hsame, List.map_singleton,
    relative?_signed hsign (plain_pair hamount hlower)] at hread
  exact hread

theorem read?_ago (hsome : digits ≠ []) (h : Run isDigit digits) (hunit : IsUnit word step) :
    read? now (String.ofList (digits ++ ' ' :: (word ++ " ago".toList))) =
      (int64OfText? digits).bind fun forward =>
        (int64? (-forward.toInt)).bind (shift? now · (word.map lowerChar)) := by
  obtain ⟨hword, hlower⟩ := isPlain_of_isUnit hunit
  have hamount := isPlain_digits hsome h
  have hago : IsPlain "ago".toList := isPlain_of_all (by decide) (by decide)
  have hread := read?_joined now [digits, word, "ago".toList]
    (List.forall_mem_cons.2 ⟨hamount, plain_pair hword hago⟩) (List.cons_ne_nil _ _)
    (absolute?_digits hsome h)
  rw [List.map_cons, lower_digits h, List.map_cons, List.map_singleton,
    show "ago".toList.map lowerChar = "ago".toList by decide,
    relative?_ago (List.forall_mem_cons.2 ⟨hamount, plain_pair hlower hago⟩)] at hread
  exact hread

/-- A name and a unit are read as one step. -/
theorem read?_named (now : Instant) (hunit : IsUnit word step) :
    read? now (String.ofList ("next ".toList ++ word)) = shift? now 1 (word.map lowerChar) ∧
      read? now (String.ofList ("last ".toList ++ word)) = shift? now (-1) (word.map lowerChar) := by
  obtain ⟨hword, hlower⟩ := isPlain_of_isUnit hunit
  have hnext : IsPlain "next".toList := isPlain_of_all (by decide) (by decide)
  have hlast : IsPlain "last".toList := isPlain_of_all (by decide) (by decide)
  constructor
  · have hread := read?_joined now ["next".toList, word]
      (plain_pair hnext hword) (List.cons_ne_nil _ _) (absolute?_word (.inr rfl) _)
    rw [List.map_cons, List.map_singleton,
      show "next".toList.map lowerChar = "next".toList by decide,
      relative?_next (plain_pair hnext hlower)] at hread
    exact hread
  · have hread := read?_joined now ["last".toList, word]
      (plain_pair hlast hword) (List.cons_ne_nil _ _) (absolute?_word (.inl rfl) _)
    rw [List.map_cons, List.map_singleton,
      show "last".toList.map lowerChar = "last".toList by decide,
      relative?_last (plain_pair hlast hlower)] at hread
    exact hread

/-- A relative date is exact arithmetic on the calendar for any number of digits, forward and
back, and the named moves are moves by one step. -/
theorem read?_relative (hleap : now.isLeapSecond = false) (hsome : digits ≠ [])
    (hdigits : Run isDigit digits) (hunit : IsUnit word step) :
    LeadsTo now (natOfDigits digits) step
        (read? now (String.ofList ('+' :: digits ++ ' ' :: word))) ∧
      LeadsTo now (-natOfDigits digits) step
        (read? now (String.ofList ('-' :: digits ++ ' ' :: word))) ∧
      LeadsTo now (-natOfDigits digits) step
        (read? now (String.ofList (digits ++ ' ' :: (word ++ " ago".toList)))) ∧
      read? now (String.ofList ("next ".toList ++ word)) =
        read? now (String.ofList ("+1 ".toList ++ word)) ∧
      read? now (String.ofList ("last ".toList ++ word)) =
        read? now (String.ofList ("-1 ".toList ++ word)) := by
  obtain ⟨multiple, base, hname, rfl, hpos⟩ := ofText?_of_isUnit hunit
  have hshift := fun n t => shift?_eq_some_iff (t := t) hleap hname hpos n
  obtain ⟨hnext, hlast⟩ := read?_named now hunit
  have hone : Run isDigit ['1'] := List.forall_mem_singleton.2 rfl
  refine ⟨leadsTo_of_iff hleap fun t => ?_, leadsTo_of_iff hleap fun t => ?_,
    leadsTo_of_iff hleap fun t => ?_, ?_, ?_⟩
  · rw [read?_signed now (.inl rfl) digits hdigits hunit, int64OfText?_plus hsome hdigits]
    exact hshift _ t
  · rw [read?_signed now (.inr rfl) digits hdigits hunit]
    exact (int64OfText?_signed true hsome hdigits).symm ▸ hshift _ t
  · rw [read?_ago hsome hdigits hunit]
    have hread : int64OfText? digits = int64? (natOfDigits digits) :=
      int64OfText?_signed false hsome hdigits
    rw [hread]
    constructor
    · intro h
      obtain ⟨forward, hforward, hback⟩ := Option.bind_eq_some_iff.1 h
      rw [int64?_eq_some_iff.1 hforward] at hback
      exact (hshift _ t).1 hback
    · intro h
      have hbound := natAbs_le_of_reaches h
      have hn := Nat.le_trans (natAbs_le_natAbs_mul _ hpos) hbound
      rw [Int.natAbs_neg] at hn
      obtain ⟨forward, hforward⟩ := exists_int64 hn
      rw [int64?_eq_some_iff.2 hforward, Option.bind_some, hforward]
      exact (hshift _ t).2 h
  · rw [hnext]
    exact (read?_signed now (.inl rfl) ['1'] hone hunit).symm
  · rw [hlast]
    exact (read?_signed now (.inr rfl) ['1'] hone hunit).symm

/-- A month after the last day of January is the last day of February, and a number of days that
fits in no machine word leads nowhere. -/
theorem read?_relative_monthEnd :
    let now : Instant := ⟨1706697000, 5, by decide, by decide, .inl (by decide)⟩
    (now.isLeapSecond = false ∧ Run isDigit ['1'] ∧ IsUnit "MonthS".toList (.months 1)) ∧
      read? now "+1 MonthS" = some ⟨1709202600, 5, by decide, by decide, .inl (by decide)⟩ ∧
      read? now "100000000000000000000 dAy ago" = none := by
  intro now
  have hmonth : IsUnit "MonthS".toList (.months 1) :=
    ⟨"month", by decide, .inr (by decide)⟩
  have hday : IsUnit "dAy".toList (.seconds 86400) := ⟨"day", by decide, .inl (by decide)⟩
  have hone : Run isDigit ['1'] := List.all_eq_true.1 (by decide)
  have hmany : Run isDigit "100000000000000000000".toList := List.all_eq_true.1 (by decide)
  have hleap : now.isLeapSecond = false := by decide
  refine ⟨⟨hleap, hone, hmonth⟩, ?_, ?_⟩
  · have hnext := (read?_relative hleap (by decide) hone hmonth).1.1
    refine (hnext _).2 ⟨⟨2024, 1, 31, ?_, ?_, ?_, ?_⟩, ⟨2024, 2, 29, ?_, ?_, ?_, ?_⟩, ?_⟩
    all_goals decide +kernel
  · have hback := (read?_relative hleap (by decide) hmany hday).2.2.1.2
    refine Option.not_isSome_iff_eq_none.1 (mt hback.1 ?_)
    simp only [InCalendar]
    decide +kernel

end Sift.Time

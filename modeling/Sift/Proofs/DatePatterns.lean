import Mathlib.Data.List.Nodup
import Sift.Proofs.InstantMoves
import Sift.Proofs.NumericText

/-!
# Texts of date patterns

A date pattern takes more texts than the ones it looks like. Its numbers may have white space
before them and fewer digits than there is room for, a year may have a sign and then any
number of digits, and a gap is any white space or none. The marks between the numbers still
tell the patterns apart, so no text belongs to two of them.

`Written` is a text of a pattern with the fields that it sets, item by item, and `IsLoose` one
that denotes an instant. The `signature` of a pattern has the numbers of its slashes, of its
separators before the clock and of its colons.
-/

namespace Sift.Time

open Sift.Text Sift.Grammar

/-- The date and the clock of the fields are real, and the instant is the one they show in a
zone that is `offset` seconds ahead. Second 60 is the leap second behind second 59. -/
def Fields.Denotes (f : Fields) (offset : Int) (t : Instant) : Prop :=
  ∃ d : Date, (d.year = f.yearValue ∧ d.month = f.month ∧ d.day = f.day) ∧
    (f.hour ≤ 23 ∧ f.minute ≤ 59 ∧ f.second ≤ 60) ∧
    t.seconds = 86400 * d.dayNumber + (3600 * f.hour + 60 * f.minute + min f.second 59 : Int) -
      offset ∧
    t.nanos = f.nanos + if f.second = 60 then nanosPerSecond else 0

theorem Fields.toInstant?_eq_some_iff {f : Fields} {offset : Int} {t : Instant} :
    f.toInstant? offset = some t ↔ f.Denotes offset t := by
  unfold toInstant? Denotes
  constructor
  · intro h
    obtain ⟨hclock, h⟩ := Option.ite_none_right_eq_some.1 h
    split at h
    · cases h
    · next d hdate =>
      obtain ⟨hseconds, hnanos⟩ := Instant.ofParts?_eq_some_iff.1 h
      exact ⟨d, Date.ofParts?_eq_some_iff.1 hdate, hclock, hseconds, hnanos⟩
  · rintro ⟨d, hdate, hclock, hseconds, hnanos⟩
    rw [if_pos hclock, Date.ofParts?_eq_some_iff.2 hdate]
    exact Instant.ofParts?_eq_some_iff.2 ⟨hseconds, hnanos⟩

/-- A number as a pattern takes it from the front of a text: white space and then digits, as
many as there are up to a limit. -/
inductive LooseNumber (limit : Nat) (after : List Char) : List Char → Nat → Prop
  | mk {blank digits : List Char} (hblank : Run isWhiteSpace blank) (hdigits : IsDigits digits)
      (hlimit : digits.length ≤ limit) (hend : digits.length < limit → Stops isDigit after) :
      LooseNumber limit after (blank ++ digits) (natOfDigits digits)

/-- A year has four digits at most, or a sign and as many as there are. The flag is the minus. -/
inductive LooseYear (after : List Char) : List Char → Nat × Bool → Prop
  | plain {text : List Char} {n : Nat} (h : LooseNumber 4 after text n) :
      LooseYear after text (n, false)
  | signed {blank digits : List Char} {sign : Char} (hblank : Run isWhiteSpace blank)
      (hsign : isSign sign = true) (hdigits : IsDigits digits) (hend : Stops isDigit after) :
      LooseYear after (blank ++ sign :: digits) (natOfDigits digits, decide (sign = '-'))

variable {s after blank digits : List Char}

theorem isWhiteSpace_of_isDigit (c : Char) (h : isDigit c = true) : isWhiteSpace c = false :=
  isWhiteSpace_of_isNumberChar (by simp [isNumberChar, h])

theorem dropWhile_blank (hblank : Run isWhiteSpace blank) (hdigits : IsDigits digits)
    (after : List Char) :
    (blank ++ (digits ++ after)).dropWhile isWhiteSpace = digits ++ after :=
  dropWhile_run hblank (hdigits.stops isWhiteSpace_of_isDigit after)

theorem takeWhile_take {limit : Nat} (hdigits : Run isDigit digits)
    (hlimit : digits.length ≤ limit) (hend : digits.length < limit → Stops isDigit after) :
    ((digits ++ after).take limit).takeWhile isDigit = digits := by
  rcases Nat.lt_or_eq_of_le hlimit with hshort | hfull
  · rw [← List.take_takeWhile, takeWhile_run hdigits (hend hshort), List.take_of_length_le hlimit]
  · have hrun := takeWhile_run hdigits (stops_nil isDigit)
    rw [List.append_nil] at hrun
    rw [← hfull, List.take_left, hrun]

theorem takeNumber_eq_some_iff {limit n : Nat} :
    takeNumber limit s = some (n, after) ↔
      ∃ text, s = text ++ after ∧ LooseNumber limit after text n := by
  constructor
  · intro h
    obtain ⟨blank, core, rfl, hblank, hcore⟩ := exists_run_append isWhiteSpace s
    obtain ⟨run, rest, rfl, hrun, hend⟩ := exists_run_append isDigit core
    simp only [takeNumber, dropWhile_run hblank hcore, ← List.take_takeWhile,
      takeWhile_run hrun hend, Option.ite_none_left_eq_some, Option.some.injEq,
      Prod.mk.injEq] at h
    obtain ⟨hsome, rfl, rfl⟩ := h
    have hsplit : run ++ rest = run.take limit ++ (run.drop limit ++ rest) := by
      rw [← List.append_assoc, List.take_append_drop]
    refine ⟨blank ++ run.take limit, ?_, .mk hblank ⟨hsome, fun c hc => ?_⟩ ?_ fun hshort => ?_⟩
    · rw [hsplit, List.drop_left, List.append_assoc]
    · exact hrun c (List.mem_of_mem_take hc)
    · exact List.length_take_le ..
    · have hall : run.length ≤ limit := by
        rw [List.length_take] at hshort
        omega
      rw [hsplit, List.drop_left, List.drop_of_length_le hall]
      exact hend
  · rintro ⟨text, rfl, ⟨hblank, hdigits, hlimit, hend⟩⟩
    rw [List.append_assoc]
    simp only [takeNumber, dropWhile_blank hblank hdigits]
    rw [takeWhile_take hdigits.2 hlimit hend, if_neg hdigits.1, List.drop_left]

/-- The sign comes right before the digits of a year. -/
theorem takeYear_signed {sign : Char} (hblank : Run isWhiteSpace blank) (hsign : isSign sign = true)
    (hdigits : Run isDigit digits) (hend : Stops isDigit after) :
    takeYear (blank ++ sign :: (digits ++ after)) =
      if digits = [] then none else some ((natOfDigits digits, decide (sign = '-')), after) := by
  have hmarks : Stops isWhiteSpace (sign :: (digits ++ after)) :=
    isWhiteSpace_of_isNumberChar (by simp [isNumberChar, hsign])
  simp only [isSign, Bool.or_eq_true, decide_eq_true_eq] at hsign
  rcases hsign with rfl | rfl
  all_goals
    simp only [takeYear, dropWhile_run hblank hmarks, takeWhile_run hdigits hend, List.drop_left]
    rfl

theorem takeYear_plain {core : List Char} (hblank : Run isWhiteSpace blank)
    (hcore : Stops isWhiteSpace core) (hsign : Stops isSign core) :
    takeYear (blank ++ core) = (takeNumber 4 core).map fun r => ((r.1, false), r.2) := by
  simp only [takeYear, dropWhile_run hblank hcore]
  cases core with
  | nil => rfl
  | cons c core =>
    have hc : c ≠ '+' ∧ c ≠ '-' := by simpa [isSign] using hsign
    simp [hc]

theorem takeYear_eq_some_iff {y : Nat × Bool} :
    takeYear s = some (y, after) ↔ ∃ text, s = text ++ after ∧ LooseYear after text y := by
  constructor
  · intro h
    obtain ⟨blank, core, rfl, hblank, hcore⟩ := exists_run_append isWhiteSpace s
    obtain ⟨mark, core, rfl, hmark⟩ := exists_marked isSign core
    cases hmark with
    | absent hsign =>
      rw [takeYear_plain hblank hcore hsign] at h
      obtain ⟨⟨n, rest⟩, hnumber, heq⟩ := Option.map_eq_some_iff.1 h
      obtain ⟨rfl, rfl⟩ := Prod.mk.inj heq
      obtain ⟨text, htext, ⟨hblank', hdigits, hlimit, hend⟩⟩ := takeNumber_eq_some_iff.1 hnumber
      refine ⟨_, ?_, .plain (.mk (run_append hblank hblank') hdigits hlimit hend)⟩
      rw [htext]
      simp only [List.append_assoc]
    | present hsign =>
      obtain ⟨digits, rest, rfl, hdigits, hend⟩ := exists_run_append isDigit core
      rw [List.singleton_append, takeYear_signed hblank hsign hdigits hend] at h
      obtain ⟨hsome, heq⟩ := Option.ite_none_left_eq_some.1 h
      obtain ⟨rfl, rfl⟩ := Prod.mk.inj (Option.some.inj heq)
      exact ⟨_, by simp, .signed hblank hsign ⟨hsome, hdigits⟩ hend⟩
  · rintro ⟨text, rfl, hyear⟩
    cases hyear with
    | plain h =>
      obtain ⟨hblank, hdigits, hlimit, hend⟩ := h
      have hnumber := takeNumber_eq_some_iff.2 ⟨_, rfl, .mk (run_nil _) hdigits hlimit hend⟩
      rw [List.nil_append] at hnumber
      rw [List.append_assoc, takeYear_plain hblank (hdigits.stops isWhiteSpace_of_isDigit _)
        (hdigits.stops isSign_of_isDigit _), hnumber]
      rfl
    | signed hblank hsign hdigits hend =>
      rw [List.append_assoc, List.cons_append, takeYear_signed hblank hsign hdigits.2 hend,
        if_neg hdigits.1]

def PatternItem.store? : PatternItem → Option (Fields → Nat → Fields)
  | .month => some fun f n => { f with month := n }
  | .day => some fun f n => { f with day := n }
  | .hour => some fun f n => { f with hour := n }
  | .minute => some fun f n => { f with minute := n }
  | .second => some fun f n => { f with second := n }
  | .year | .gap | .exactly _ => none

inductive Written : List PatternItem → Fields → List Char → Fields → Prop
  | nil {f : Fields} : Written [] f [] f
  | year {items : List PatternItem} {f g : Fields} {text after : List Char} {y : Nat × Bool}
      (hyear : LooseYear after text y) (h : Written items { f with year := y } after g) :
      Written (.year :: items) f (text ++ after) g
  | number {item : PatternItem} {store : Fields → Nat → Fields} {items : List PatternItem}
      {f g : Fields} {text after : List Char} {n : Nat} (hitem : item.store? = some store)
      (hnumber : LooseNumber 2 after text n) (h : Written items (store f n) after g) :
      Written (item :: items) f (text ++ after) g
  | gap {items : List PatternItem} {f g : Fields} {blank after : List Char}
      (hblank : Run isWhiteSpace blank) (hend : Stops isWhiteSpace after)
      (h : Written items f after g) : Written (.gap :: items) f (blank ++ after) g
  | exactly {c : Char} {items : List PatternItem} {f g : Fields} {after : List Char}
      (h : Written items f after g) : Written (.exactly c :: items) f (c :: after) g

theorem matchPattern_number {item : PatternItem} {store : Fields → Nat → Fields}
    (hitem : item.store? = some store) (items : List PatternItem) (f : Fields) (s : List Char) :
    matchPattern (item :: items) f s =
      (takeNumber 2 s).bind fun r => matchPattern items (store f r.1) r.2 := by
  cases item with
  | year | gap | exactly => cases hitem
  | month | day | hour | minute | second =>
    obtain rfl := Option.some.inj hitem
    rfl

theorem matchPattern_of_written {items : List PatternItem} {f g : Fields}
    (h : Written items f s g) : matchPattern items f s = some g := by
  induction h with
  | nil => rfl
  | year hyear _ ih =>
    rw [matchPattern, takeYear_eq_some_iff.2 ⟨_, rfl, hyear⟩]
    exact ih
  | number hitem hnumber _ ih =>
    rw [matchPattern_number hitem, takeNumber_eq_some_iff.2 ⟨_, rfl, hnumber⟩]
    exact ih
  | gap hblank hend _ ih => rw [matchPattern, dropWhile_run hblank hend, ih]
  | exactly _ ih => rw [matchPattern, if_pos rfl, ih]

theorem written_of_matchPattern {items : List PatternItem} {f g : Fields}
    (h : matchPattern items f s = some g) : Written items f s g := by
  induction items generalizing f s with
  | nil =>
    obtain ⟨rfl, heq⟩ := Option.ite_none_right_eq_some.1 h
    obtain rfl := Option.some.inj heq
    exact .nil
  | cons item items ih =>
    have hnumber (store : Fields → Nat → Fields) (hitem : item.store? = some store) :
        Written (item :: items) f s g := by
      rw [matchPattern_number hitem] at h
      obtain ⟨⟨n, after⟩, htake, hrest⟩ := Option.bind_eq_some_iff.1 h
      obtain ⟨text, rfl, hloose⟩ := takeNumber_eq_some_iff.1 htake
      exact .number hitem hloose (ih hrest)
    cases item with
    | year =>
      obtain ⟨⟨y, after⟩, htake, hrest⟩ := Option.bind_eq_some_iff.1 h
      obtain ⟨text, rfl, hloose⟩ := takeYear_eq_some_iff.1 htake
      exact .year hloose (ih hrest)
    | gap =>
      obtain ⟨blank, after, rfl, hblank, hend⟩ := exists_run_append isWhiteSpace s
      rw [matchPattern, dropWhile_run hblank hend] at h
      exact .gap hblank hend (ih h)
    | exactly c =>
      cases s with
      | nil => cases h
      | cons x s =>
        obtain ⟨rfl, hrest⟩ := Option.ite_none_right_eq_some.1 h
        exact .exactly (ih hrest)
    | month | day | hour | minute | second => exact hnumber _ rfl

def isMark (c : Char) : Bool := !isDigit c && !isSign c && !isWhiteSpace c

def PatternItem.mark? : PatternItem → Option Char
  | .exactly c => some c
  | _ => none

theorem count_eq_zero_of_run {p : Char → Bool} {c : Char} (h : Run p s) (hc : p c = false) :
    s.count c = 0 := List.count_eq_zero.2 (not_mem_of_run h hc)

theorem LooseNumber.count {limit n : Nat} {text : List Char} {c : Char}
    (h : LooseNumber limit after text n) (hc : isMark c = true) : text.count c = 0 := by
  simp only [isMark, Bool.and_eq_true, Bool.not_eq_true'] at hc
  obtain ⟨hblank, hdigits, -, -⟩ := h
  rw [List.count_append, count_eq_zero_of_run hblank hc.2, count_eq_zero_of_run hdigits.2 hc.1.1]

theorem LooseYear.count {y : Nat × Bool} {text : List Char} {c : Char}
    (h : LooseYear after text y) (hc : isMark c = true) : text.count c = 0 := by
  cases h with
  | plain h => exact h.count hc
  | @signed blank digits sign hblank hsign hdigits =>
    simp only [isMark, Bool.and_eq_true, Bool.not_eq_true'] at hc
    have hne : sign ≠ c := by
      rintro rfl
      exact Bool.false_ne_true (hc.1.2 ▸ hsign)
    rw [List.count_append, List.count_cons_of_ne hne, count_eq_zero_of_run hblank hc.2,
      count_eq_zero_of_run hdigits.2 hc.1.1]

/-- A text has the marks of its pattern and no others. -/
theorem Written.count_eq {items : List PatternItem} {f g : Fields} {c : Char}
    (h : Written items f s g) (hc : isMark c = true) :
    s.count c = (items.filterMap PatternItem.mark?).count c := by
  induction h with
  | nil => rfl
  | year hyear _ ih => rw [List.count_append, hyear.count hc, ih, Nat.zero_add]; rfl
  | @number item store _ _ _ _ _ _ hitem hnumber _ ih =>
    have hnone : item.mark? = none := by
      cases item with
      | exactly => cases hitem
      | _ => rfl
    rw [List.count_append, hnumber.count hc, ih, Nat.zero_add, List.filterMap_cons_none hnone]
  | gap hblank _ _ ih =>
    simp only [isMark, Bool.and_eq_true, Bool.not_eq_true'] at hc
    rw [List.count_append, count_eq_zero_of_run hblank hc.2, ih, Nat.zero_add]
    rfl
  | @exactly d items _ _ _ _ ih =>
    rw [List.filterMap_cons_some (rfl : (PatternItem.exactly d).mark? = some d), List.count_cons,
      List.count_cons, ih]

def signature (items : List PatternItem) : List Nat :=
  ['/', 'T', ':'].map fun c => (items.filterMap PatternItem.mark?).count c

theorem eq_of_written {p q : List PatternItem} {f f' g g' : Fields} (hp : p ∈ patterns)
    (hq : q ∈ patterns) (h : Written p f s g) (h' : Written q f' s g') : p = q := by
  have hnodup : (patterns.map signature).Nodup := by decide
  have hmarks : ['/', 'T', ':'].all isMark = true := by decide
  refine List.inj_on_of_nodup_map hnodup hp hq (List.map_congr_left fun c hc => ?_)
  have hc := List.all_eq_true.1 hmarks c hc
  rw [← h.count_eq hc, ← h'.count_eq hc]

def IsLoose (s : List Char) (t : Instant) : Prop :=
  ∃ p ∈ patterns, ∃ f, Written p {} s f ∧ f.Denotes 0 t

theorem matchesPattern?_eq_some_iff {p : List PatternItem} {t : Instant} :
    matchesPattern? s p = some t ↔ ∃ f, Written p {} s f ∧ f.Denotes 0 t := by
  simp only [matchesPattern?, Option.bind_eq_some_iff, Fields.toInstant?_eq_some_iff]
  constructor
  · rintro ⟨f, hread, hdenotes⟩
    exact ⟨f, written_of_matchPattern hread, hdenotes⟩
  · rintro ⟨f, hwritten, hdenotes⟩
    exact ⟨f, matchPattern_of_written hwritten, hdenotes⟩

/-- The order in which the patterns are tried does not matter. -/
theorem findSome?_patterns_iff {t : Instant} :
    patterns.findSome? (matchesPattern? s) = some t ↔ IsLoose s t := by
  constructor
  · intro h
    obtain ⟨p, hp, hread⟩ := List.exists_of_findSome?_eq_some h
    exact ⟨p, hp, matchesPattern?_eq_some_iff.1 hread⟩
  · rintro ⟨p, hp, f, hwritten, hdenotes⟩
    have hread := matchesPattern?_eq_some_iff.2 ⟨f, hwritten, hdenotes⟩
    obtain ⟨t', hfirst⟩ := Option.isSome_iff_exists.1
      (List.findSome?_isSome_iff.2 ⟨p, hp, Option.isSome_iff_exists.2 ⟨t, hread⟩⟩)
    obtain ⟨q, hq, hread'⟩ := List.exists_of_findSome?_eq_some hfirst
    obtain ⟨f', hwritten', -⟩ := matchesPattern?_eq_some_iff.1 hread'
    obtain rfl := eq_of_written hp hq hwritten hwritten'
    rw [hfirst, ← hread', hread]

end Sift.Time

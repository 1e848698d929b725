import Sift.Json
import Sift.Proofs.Notation

/-!
# JSON is read back

A reader of JSON cuts the text into tokens and puts them together with a stack of the arrays
and objects that are open. The compact text of a value and the indented one have the same
tokens, those of the value. A number is a float exactly if its text has more than digits and a
sign, so an integer and a float never share a text.
-/

namespace Sift.Json

open Sift.Text Sift.Grammar

inductive Token where
  | openArray
  | closeArray
  | openObject
  | closeObject
  | comma
  | colon
  | scalar (v : Json)

def mark? : Char → Option Token
  | '[' => some .openArray
  | ']' => some .closeArray
  | '\x7b' => some .openObject
  | '\x7d' => some .closeObject
  | ',' => some .comma
  | ':' => some .colon
  | _ => none

def isSpace (c : Char) : Bool := c ∈ [' ', '\t', '\n', '\r']

def isPlain (c : Char) : Bool := isLetter c || isDigit c || c ∈ ['+', '-', '.']

def hexValue? (c : Char) : Option Nat :=
  if isDigit c then some (digitValue c)
  else if 'a' ≤ c && c ≤ 'f' then some (c.toNat - 'a'.toNat + 10)
  else if 'A' ≤ c && c ≤ 'F' then some (c.toNat - 'A'.toNat + 10)
  else none

def charOfHex? (digits : List Char) : Option Char := do
  let n ← digits.foldlM (fun n c => (hexValue? c).map (16 * n + ·)) 0
  if n.isValidChar then some (Char.ofNat n) else none

def escaped? : Char → Option Char
  | 'b' => some '\x08'
  | 't' => some '\t'
  | 'n' => some '\n'
  | 'f' => some '\x0c'
  | 'r' => some '\r'
  | c => if c ∈ ['"', '\\', '/'] then some c else none

def readString? : List Char → Option (List Char × List Char)
  | [] => none
  | '"' :: s => some ([], s)
  | '\\' :: 'u' :: a :: b :: c :: d :: s => do
    let x ← charOfHex? [a, b, c, d]
    (readString? s).map fun (text, rest) => (x :: text, rest)
  | '\\' :: c :: s => do
    let x ← escaped? c
    (readString? s).map fun (text, rest) => (x :: text, rest)
  | c :: s => (readString? s).map fun (text, rest) => (c :: text, rest)

/-- A constant or a number. A number that is not whole, or not written as one, is a float. -/
def scalar? (word : List Char) : Option Json :=
  match String.ofList word with
  | "true" => some (.bool true)
  | "false" => some (.bool false)
  | "null" => some .null
  | _ =>
    match intOfText? word with
    | some i => some (.int i)
    | none => (Decimal.ofText? word).map fun d => .float (Binary64.ofDecimal d)

theorem length_of_readString? {s text rest : List Char} (h : readString? s = some (text, rest)) :
    rest.length < s.length := by
  fun_induction readString? s generalizing text with
  | case1 => cases h
  | case2 s =>
    obtain ⟨rfl, rfl⟩ := Prod.mk.inj (Option.some.inj h)
    exact Nat.lt_succ_self _
  | case3 a b c d s ih =>
    obtain ⟨x, -, hmap⟩ := Option.bind_eq_some_iff.1 h
    obtain ⟨⟨text', rest'⟩, hread, heq⟩ := Option.map_eq_some_iff.1 hmap
    obtain ⟨-, rfl⟩ := Prod.mk.inj heq
    have hlength := ih hread
    simp only [List.length_cons]
    omega
  | case4 c s _ ih =>
    obtain ⟨x, -, hmap⟩ := Option.bind_eq_some_iff.1 h
    obtain ⟨⟨text', rest'⟩, hread, heq⟩ := Option.map_eq_some_iff.1 hmap
    obtain ⟨-, rfl⟩ := Prod.mk.inj heq
    have hlength := ih hread
    simp only [List.length_cons]
    omega
  | case5 c s _ _ _ ih =>
    obtain ⟨⟨text', rest'⟩, hread, heq⟩ := Option.map_eq_some_iff.1 h
    obtain ⟨-, rfl⟩ := Prod.mk.inj heq
    exact Nat.lt_succ_of_lt (ih hread)

def tokens (s : List Char) : Option (List Token) :=
  match s with
  | [] => some []
  | c :: s =>
    if isSpace c then tokens s
    else if c = '"' then
      match _ : readString? s with
      | none => none
      | some (text, rest) => (tokens rest).map (.scalar (.string (String.ofList text)) :: ·)
    else if isPlain c then do
      let v ← scalar? (c :: s.takeWhile isPlain)
      (tokens (s.dropWhile isPlain)).map (.scalar v :: ·)
    else do
      let t ← mark? c
      (tokens s).map (t :: ·)
termination_by s.length
decreasing_by
  · simp
  · have hlength := length_of_readString? ‹_›
    simp only [List.length_cons]
    omega
  · have hlength := (List.dropWhile_suffix isPlain (l := s)).length_le
    simp only [List.length_cons]
    omega
  · simp

/-- An array or an object that is open, with what has been read in it, the latest first. -/
inductive Frame where
  | array (elements : List Json)
  | object (members : List (String × Json)) (key : String)

/-- What comes next: a value, a member of an object of which others have been read, or what
follows a value. -/
inductive Phase where
  | value
  | member (read : List (String × Json))
  | done (v : Json)

def build : List Frame → Phase → List Token → Option Json
  | [], .done v, [] => some v
  | stack, .value, .scalar v :: ts => build stack (.done v) ts
  | stack, .value, .openArray :: .closeArray :: ts => build stack (.done (.array [])) ts
  | stack, .value, .openArray :: ts => build (.array [] :: stack) .value ts
  | stack, .value, .openObject :: .closeObject :: ts => build stack (.done (.object [])) ts
  | stack, .value, .openObject :: ts => build stack (.member []) ts
  | stack, .member read, .scalar (.string k) :: .colon :: ts =>
    build (.object read k :: stack) .value ts
  | .array read :: stack, .done v, .comma :: ts => build (.array (v :: read) :: stack) .value ts
  | .array read :: stack, .done v, .closeArray :: ts =>
    build stack (.done (.array (v :: read).reverse)) ts
  | .object read k :: stack, .done v, .comma :: ts => build stack (.member ((k, v) :: read)) ts
  | .object read k :: stack, .done v, .closeObject :: ts =>
    build stack (.done (.object ((k, v) :: read).reverse)) ts
  | _, _, _ => none

def read? (s : String) : Option Json := do
  build [] .value (← tokens s.toList)

theorem charOfHex?_hexDigit : ∀ n, n < 0x20 →
    charOfHex? ['0', '0', hexDigit (n / 16), hexDigit (n % 16)] = some (Char.ofNat n) := by
  decide

theorem readString?_escapeChar (c : Char) (s : List Char) : readString? (escapeChar c ++ s) =
    (readString? s).map fun (text, rest) => (c :: text, rest) := by
  by_cases hnamed : c ∈ ['"', '\\', '\x08', '\t', '\n', '\x0c', '\r']
  · simp only [List.mem_cons, List.not_mem_nil, or_false] at hnamed
    obtain rfl | rfl | rfl | rfl | rfl | rfl | rfl := hnamed
    all_goals rfl
  simp only [List.mem_cons, List.not_mem_nil, or_false, not_or] at hnamed
  obtain ⟨hquote, hescape, h1, h2, h3, h4, h5⟩ := hnamed
  simp only [escapeChar, hquote, hescape, h1, h2, h3, h4, h5, if_false]
  split
  · next hcontrol =>
    have hchar := charOfHex?_hexDigit c.toNat hcontrol
    rw [Char.ofNat_toNat] at hchar
    simp only [List.cons_append, List.nil_append, readString?, hchar, Option.bind_eq_bind,
      Option.bind_some]
  · rw [List.cons_append, List.nil_append, readString?]
    · exact hquote
    · exact fun _ _ _ _ _ heq _ => hescape heq
    · exact fun _ _ heq _ => hescape heq

theorem readString?_flatMap (text rest : List Char) :
    readString? (text.flatMap escapeChar ++ '"' :: rest) = some (text, rest) := by
  induction text with
  | nil => rfl
  | cons c text ih => rw [List.flatMap_cons, List.append_assoc, readString?_escapeChar, ih,
      Option.map_some]

theorem tokens_space {c : Char} (h : isSpace c = true) (s : List Char) :
    tokens (c :: s) = tokens s := by
  rw [tokens, if_pos h]

theorem tokens_mark {c : Char} {t : Token} (h : mark? c = some t) (s : List Char) :
    tokens (c :: s) = (tokens s).map (t :: ·) := by
  have hc : c ∈ ['[', ']', '\x7b', '\x7d', ',', ':'] := by
    unfold mark? at h
    split at h
    case h_7 => cases h
    all_goals decide
  have hall : ['[', ']', '\x7b', '\x7d', ',', ':'].all
      (fun c => !isSpace c && !decide (c = '"') && !isPlain c) = true := by decide
  have hclasses := List.all_eq_true.1 hall c hc
  simp only [Bool.and_eq_true, Bool.not_eq_true', decide_eq_false_iff_not, and_assoc] at hclasses
  obtain ⟨hspace, hquote, hplain⟩ := hclasses
  rw [tokens]
  simp [hspace, hquote, hplain, h]

theorem tokens_quote (text : String) (rest : List Char) :
    tokens (quote text ++ rest) = (tokens rest).map (.scalar (.string text) :: ·) := by
  have hread : readString? (text.toList.flatMap escapeChar ++ ['"'] ++ rest) =
      some (text.toList, rest) := by
    rw [List.append_assoc]
    exact readString?_flatMap text.toList rest
  have hspace : isSpace '"' = false := by decide
  rw [quote, List.cons_append, List.cons_append, tokens]
  simp only [hspace, Bool.false_eq_true, if_false, if_true]
  split
  · next h =>
    rw [hread] at h
    cases h
  · next h =>
    obtain ⟨rfl, rfl⟩ := Prod.mk.inj (Option.some.inj (hread.symm.trans h))
    rw [String.ofList_toList]

theorem isPlain_classes {c : Char} (h : isPlain c = true) : isSpace c = false ∧ c ≠ '"' := by
  have hall : [' ', '\t', '\n', '\r', '"'].all (fun c => !isPlain c) = true := by decide
  have hnot : c ∉ [' ', '\t', '\n', '\r', '"'] := by
    intro hmem
    have hplain := List.all_eq_true.1 hall c hmem
    rw [h] at hplain
    cases hplain
  simp only [List.mem_cons, List.not_mem_nil, or_false, not_or] at hnot
  obtain ⟨h1, h2, h3, h4, h5⟩ := hnot
  exact ⟨by simp [isSpace, h1, h2, h3, h4], h5⟩

theorem scalar?_nil : scalar? [] = none := rfl

theorem tokens_scalar {word rest : List Char} {v : Json} (hword : Run isPlain word)
    (hend : Stops isPlain rest) (hv : scalar? word = some v) :
    tokens (word ++ rest) = (tokens rest).map (.scalar v :: ·) := by
  have hsome : word ≠ [] := by
    rintro rfl
    cases scalar?_nil.symm.trans hv
  obtain ⟨c, cs, rfl⟩ := List.exists_cons_of_ne_nil hsome
  obtain ⟨hc, hcs⟩ := (run_cons _ _ _).1 hword
  obtain ⟨hspace, hquote⟩ := isPlain_classes hc
  rw [List.cons_append, tokens]
  simp [hspace, hquote, hc, takeWhile_run hcs hend, dropWhile_run hcs hend, hv]

/-- No number is spelled like a constant. -/
theorem scalar?_signed {negative : Bool} {d : Char} {s : List Char} (hd : isDigit d = true) :
    scalar? (signed negative (d :: s)) =
      match intOfText? (signed negative (d :: s)) with
      | some i => some (.int i)
      | none => (Decimal.ofText? (signed negative (d :: s))).map fun d =>
          .float (Binary64.ofDecimal d) := by
  have hhead : ∃ c cs, signed negative (d :: s) = c :: cs ∧ c ∉ ['t', 'f', 'n'] := by
    cases negative with
    | true => exact ⟨_, _, rfl, by decide⟩
    | false =>
      refine ⟨d, s, rfl, fun hmem => ?_⟩
      have hall : ['t', 'f', 'n'].all (fun c => !isDigit c) = true := by decide
      have hnot := List.all_eq_true.1 hall d hmem
      rw [hd] at hnot
      cases hnot
  obtain ⟨c, cs, htext, hc⟩ := hhead
  have hne {x : Char} {xs : List Char} (hx : x ∈ ['t', 'f', 'n']) :
      String.ofList (c :: cs) ≠ String.ofList (x :: xs) := by
    intro heq
    obtain ⟨rfl, -⟩ := List.cons.inj (String.ofList_injective heq)
    exact hc hx
  rw [htext]
  unfold scalar?
  split
  · next h => exact absurd h (hne (by decide))
  · next h => exact absurd h (hne (by decide))
  · next h => exact absurd h (hne (by decide))
  · rfl

theorem scalar?_digitsOfInt (i : Int) : scalar? (digitsOfInt i) = some (.int i) := by
  obtain ⟨htext, hnumber⟩ := digitsOfInt_eq i
  have hsome := digitsOfNat_ne_nil i.natAbs
  have hrun := run_digitsOfNat i.natAbs
  have hread : intOfText? (signed (i < 0) (digitsOfNat i.natAbs)) =
      some (wholeNumber (i < 0) (digitsOfNat i.natAbs)) := intOfText?_signed hsome hrun
  rw [htext]
  generalize digitsOfNat i.natAbs = digits at hnumber hsome hrun hread ⊢
  obtain ⟨d, ds, rfl⟩ := List.exists_cons_of_ne_nil hsome
  rw [scalar?_signed ((run_cons _ _ _).1 hrun).1, hread, hnumber]

theorem intOfText?_of_mem {negative : Bool} {d c : Char} {s : List Char} (hd : isDigit d = true)
    (hmem : c ∈ s) (hc : isDigit c = false) : intOfText? (signed negative (d :: s)) = none := by
  have hall : (d :: s).all isDigit = false :=
    List.all_eq_false.2 ⟨c, List.mem_cons_of_mem _ hmem, by simp [hc]⟩
  simp only [intOfText?, takeSign_signed hd, hall]
  simp

def exponentText (e : Int) : List Char := (if e < 0 then '-' else '+') :: digitsOfNat e.natAbs

def pointed : List Char → List Char
  | [] => []
  | digits => '.' :: digits

theorem exponentOfText?_exponentText (e : Int) :
    Decimal.exponentOfText? ('e' :: exponentText e) = some e := by
  have hread : intOfText? (exponentText e) = some (wholeNumber (e < 0) (digitsOfNat e.natAbs)) := by
    have hsome := digitsOfNat_ne_nil e.natAbs
    have hall := all_isDigit (run_digitsOfNat e.natAbs)
    by_cases he : e < 0 <;>
      simp [exponentText, intOfText?, takeSign, he, hsome, hall, wholeNumber]
  rw [Decimal.exponentOfText?, if_pos (by decide), hread, (digitsOfInt_eq e).2]

theorem ofText?_scientific {negative : Bool} {first : Char} {others : List Char} (e : Int)
    (hfirst : isDigit first = true) (hothers : Run isDigit others) :
    Decimal.ofText? (signed negative (first :: (pointed others ++ 'e' :: exponentText e))) =
      some ⟨negative, natOfDigits (first :: others), e - others.length⟩ := by
  have he : Stops isDigit ('e' :: exponentText e) := by
    rw [stops_cons]
    decide
  have hstop : Stops isDigit (pointed others ++ 'e' :: exponentText e) := by
    cases others with
    | nil => exact he
    | cons c cs =>
      rw [pointed, List.cons_append, stops_cons]
      · decide
      · simp
  have hrun : Run isDigit [first] := by simp [hfirst]
  have htake := takeWhile_run hrun hstop
  have hdrop := dropWhile_run hrun hstop
  rw [List.singleton_append] at htake hdrop
  simp only [Decimal.ofText?, takeSign_signed hfirst, htake, hdrop]
  cases others with
  | nil => simp [pointed, exponentOfText?_exponentText]
  | cons c cs =>
    have htake' := takeWhile_run hothers he
    have hdrop' := dropWhile_run hothers he
    rw [List.cons_append] at htake' hdrop'
    simp [pointed, htake', hdrop', exponentOfText?_exponentText]

theorem scientific_eq (d : Decimal) : ∃ first others, digitsOfNat d.digits = first :: others ∧
    Binary64.scientific d =
      signed d.negative (first :: (pointed others ++ 'e' :: exponentText (d.point - 1))) := by
  obtain ⟨first, others, hdigits⟩ := List.exists_cons_of_ne_nil (digitsOfNat_ne_nil d.digits)
  refine ⟨first, others, hdigits, ?_⟩
  rw [Binary64.scientific, hdigits]
  obtain ⟨negative, n, e⟩ := d
  cases others <;> cases negative <;> rfl

/-- A text of digits with more than digits in it is read as the float that it denotes. -/
theorem scalar?_jsonText {x : Binary64} (hx : x.isFinite) :
    scalar? x.jsonText = some (.float x) := by
  have hshortest := Binary64.ofDecimal_shortest .even hx
  rw [Binary64.jsonText]
  generalize x.shortest .even = d at hshortest
  split
  · obtain ⟨digits, fraction, hnumeral, htext⟩ := withFraction_positional d
    have hwhole : intOfText? (signed d.negative (digits ++ '.' :: fraction)) = none :=
      intOfText?_fraction hnumeral.digits_ne_nil hnumeral.run_digits
    have hread : Decimal.ofText? (signed d.negative (digits ++ '.' :: fraction)) =
        some ⟨d.negative, natOfDigits (digits ++ fraction), -fraction.length⟩ :=
      ofText?_fraction hnumeral.digits_ne_nil hnumeral.run_digits hnumeral.run_fraction
    have hvalue := ofDecimal_isNumeral hnumeral
    obtain ⟨c, cs, rfl⟩ := List.exists_cons_of_ne_nil hnumeral.digits_ne_nil
    have hc := ((run_cons _ _ _).1 hnumeral.run_digits).1
    rw [htext, List.cons_append, scalar?_signed hc, ← List.cons_append, hwhole, hread]
    simp only [Option.map_some, hvalue, hshortest]
  · obtain ⟨first, others, hdigits, htext⟩ := scientific_eq d
    have hrun := run_digitsOfNat d.digits
    rw [hdigits] at hrun
    obtain ⟨hfirst, hothers⟩ := (run_cons _ _ _).1 hrun
    have hwhole : intOfText? (signed d.negative
        (first :: (pointed others ++ 'e' :: exponentText (d.point - 1)))) = none :=
      intOfText?_of_mem (c := 'e') hfirst (by simp) (by decide)
    have hexponent : d.point - 1 - others.length = d.exponent := by
      have hcount : digitCount d.digits = others.length + 1 := by
        rw [digitCount, hdigits, List.length_cons]
      rw [Decimal.point, hcount]
      omega
    rw [htext, scalar?_signed hfirst, hwhole, ofText?_scientific _ hfirst hothers, hexponent,
      ← hdigits, natOfDigits_digitsOfNat]
    simp only [Option.map_some, hshortest]

theorem run_isPlain {s : List Char} (h : Run isDigit s) : Run isPlain s := by
  intro c hc
  simp [Json.isPlain, h c hc]

theorem run_isPlain_signed (negative : Bool) {s : List Char} (h : Run isPlain s) :
    Run isPlain (signed negative s) := by
  cases negative with
  | true => exact (run_cons _ _ _).2 ⟨by decide, h⟩
  | false => exact h

theorem run_isPlain_digitsOfInt (i : Int) : Run isPlain (digitsOfInt i) := by
  rw [(digitsOfInt_eq i).1]
  exact run_isPlain_signed _ (run_isPlain (run_digitsOfNat _))

theorem run_isPlain_jsonText (x : Binary64) : Run isPlain x.jsonText := by
  rw [Binary64.jsonText]
  generalize x.shortest .even = d
  split
  · obtain ⟨digits, fraction, hnumeral, htext⟩ := withFraction_positional d
    rw [htext]
    exact run_isPlain_signed _ (run_append (run_isPlain hnumeral.run_digits)
      ((run_cons _ _ _).2 ⟨by decide, run_isPlain hnumeral.run_fraction⟩))
  · obtain ⟨first, others, hdigits, htext⟩ := scientific_eq d
    have hrun := run_digitsOfNat d.digits
    rw [hdigits] at hrun
    obtain ⟨hfirst, hothers⟩ := (run_cons _ _ _).1 (run_isPlain hrun)
    have hpointed : Run isPlain (pointed others) := by
      cases others with
      | nil => exact run_nil _
      | cons c cs => exact (run_cons _ _ _).2 ⟨by decide, hothers⟩
    have hexponent : Run isPlain ('e' :: exponentText (d.point - 1)) := by
      have hdigits := run_isPlain (run_digitsOfNat (d.point - 1).natAbs)
      refine (run_cons _ _ _).2 ⟨by decide, (run_cons _ _ _).2 ⟨?_, hdigits⟩⟩
      split <;> decide
    rw [htext]
    exact run_isPlain_signed _ ((run_cons _ _ _).2 ⟨hfirst, run_append hpointed hexponent⟩)

mutual

def tokensOf : Json → List Token
  | .array elements => .openArray :: tokensOfElements elements ++ [.closeArray]
  | .object members => .openObject :: tokensOfMembers members ++ [.closeObject]
  | v => [.scalar v]

def tokensOfElements : List Json → List Token
  | [] => []
  | [v] => tokensOf v
  | v :: vs => tokensOf v ++ .comma :: tokensOfElements vs

def tokensOfMembers : List (String × Json) → List Token
  | [] => []
  | [(k, v)] => .scalar (.string k) :: .colon :: tokensOf v
  | (k, v) :: ms =>
    .scalar (.string k) :: .colon :: tokensOf v ++ .comma :: tokensOfMembers ms

end

mutual

def AllFinite : Json → Prop
  | .float x => x.isFinite
  | .array elements => AllFiniteElements elements
  | .object members => AllFiniteMembers members
  | _ => True

def AllFiniteElements : List Json → Prop
  | [] => True
  | v :: vs => AllFinite v ∧ AllFiniteElements vs

def AllFiniteMembers : List (String × Json) → Prop
  | [] => True
  | (_, v) :: ms => AllFinite v ∧ AllFiniteMembers ms

end

/-- A text has certain tokens wherever no character of a number or a constant follows it. -/
def Spells (text : List Char) (ts : List Token) : Prop :=
  ∀ rest, Stops isPlain rest → tokens (text ++ rest) = (tokens rest).map (ts ++ ·)

namespace Spells

theorem nil : Spells [] [] := by
  intro rest _
  cases h : tokens rest <;> simp [h]

theorem mark {c : Char} {t : Token} {text : List Char} {ts : List Token} (hc : mark? c = some t)
    (h : Spells text ts) : Spells (c :: text) (t :: ts) := by
  intro rest hrest
  rw [List.cons_append, tokens_mark hc, h rest hrest, Option.map_map]
  rfl

theorem space {c : Char} {text : List Char} {ts : List Token} (hc : isSpace c = true)
    (h : Spells text ts) : Spells (c :: text) ts := by
  intro rest hrest
  rw [List.cons_append, tokens_space hc, h rest hrest]

theorem append {c : Char} {text text' : List Char} {ts ts' : List Token} (h : Spells text ts)
    (h' : Spells (c :: text') ts') (hc : isPlain c = false) :
    Spells (text ++ c :: text') (ts ++ ts') := by
  intro rest hrest
  rw [List.append_assoc, h (c :: text' ++ rest) hc, h' rest hrest, Option.map_map]
  congr 1
  funext ts''
  exact (List.append_assoc ts ts' ts'').symm

theorem newLine (level : Nat) {text : List Char} {ts : List Token} (h : Spells text ts) :
    Spells (Json.newLine level ++ text) ts := by
  refine space (by decide) ?_
  induction 2 * level with
  | zero => exact h
  | succ n ih => exact space (by decide) ih

theorem quote (k : String) {text : List Char} {ts : List Token} (h : Spells text ts) :
    Spells (Json.quote k ++ text) (.scalar (.string k) :: ts) := by
  intro rest hrest
  rw [List.append_assoc, tokens_quote, h rest hrest, Option.map_map]
  rfl

theorem scalar {word : List Char} {v : Json} (hword : Run isPlain word)
    (hv : scalar? word = some v) : Spells word [.scalar v] :=
  fun _ hrest => tokens_scalar hword hrest hv

end Spells

theorem spells_scalarText : (v : Json) → v.AllFinite → tokensOf v = [.scalar v] →
    Spells v.scalarText [.scalar v]
  | .null, _, _ => .scalar (List.all_eq_true.1 (by decide)) rfl
  | .bool true, _, _ => .scalar (List.all_eq_true.1 (by decide)) rfl
  | .bool false, _, _ => .scalar (List.all_eq_true.1 (by decide)) rfl
  | .int i, _, _ => .scalar (run_isPlain_digitsOfInt i) (scalar?_digitsOfInt i)
  | .float x, h, _ => by
    have hx : x.isFinite := h
    rw [scalarText, if_pos hx]
    exact .scalar (run_isPlain_jsonText x) (scalar?_jsonText hx)
  | .string s, _, _ => by simpa [scalarText] using Spells.quote s .nil
  | .array _, _, h => by cases h
  | .object _, _, h => by cases h

mutual

theorem spells_compact : (v : Json) → v.AllFinite → Spells v.compact (tokensOf v)
  | .null, h => spells_scalarText .null h rfl
  | .bool b, h => spells_scalarText (.bool b) h rfl
  | .int i, h => spells_scalarText (.int i) h rfl
  | .float x, h => spells_scalarText (.float x) h rfl
  | .string s, h => spells_scalarText (.string s) h rfl
  | .array elements, h =>
    .mark rfl ((spells_compactElements elements h).append (.mark rfl .nil) (by decide))
  | .object members, h =>
    .mark rfl ((spells_compactMembers members h).append (.mark rfl .nil) (by decide))

theorem spells_compactElements : (vs : List Json) → AllFiniteElements vs →
    Spells (compactElements vs) (tokensOfElements vs)
  | [], _ => .nil
  | [v], h => spells_compact v h.1
  | v :: w :: vs, h =>
    (spells_compact v h.1).append (.mark rfl (spells_compactElements (w :: vs) h.2)) (by decide)

theorem spells_compactMembers : (ms : List (String × Json)) → AllFiniteMembers ms →
    Spells (compactMembers ms) (tokensOfMembers ms)
  | [], _ => .nil
  | [(k, v)], h => .quote k (.mark rfl (spells_compact v h.1))
  | (k, v) :: m :: ms, h => by
    have hmember := Spells.quote k (.mark (c := ':') rfl (spells_compact v h.1))
    exact hmember.append (.mark rfl (spells_compactMembers (m :: ms) h.2)) (by decide)

end

mutual

theorem spells_indented (level : Nat) : (v : Json) → v.AllFinite →
    Spells (v.indented level) (tokensOf v)
  | .null, h => spells_scalarText .null h rfl
  | .bool b, h => spells_scalarText (.bool b) h rfl
  | .int i, h => spells_scalarText (.int i) h rfl
  | .float x, h => spells_scalarText (.float x) h rfl
  | .string s, h => spells_scalarText (.string s) h rfl
  | .array [], _ => .mark rfl (.mark rfl .nil)
  | .array (v :: vs), h => by
    have helements := spells_indentedElements (level + 1) (v :: vs) h
    have hend := Spells.newLine level (.mark (c := ']') rfl .nil)
    rw [indented, List.append_assoc]
    · exact .mark rfl (helements.append hend (by decide))
    · simp
  | .object [], _ => .mark rfl (.mark rfl .nil)
  | .object (m :: ms), h => by
    have hmembers := spells_indentedMembers (level + 1) (m :: ms) h
    have hend := Spells.newLine level (.mark (c := '\x7d') rfl .nil)
    rw [indented, List.append_assoc]
    · exact .mark rfl (hmembers.append hend (by decide))
    · simp

theorem spells_indentedElements (level : Nat) : (vs : List Json) → AllFiniteElements vs →
    Spells (indentedElements level vs) (tokensOfElements vs)
  | [], _ => .nil
  | [v], h => .newLine level (spells_indented level v h.1)
  | v :: w :: vs, h => by
    have helement := Spells.newLine level (spells_indented level v h.1)
    exact helement.append (.mark rfl (spells_indentedElements level (w :: vs) h.2)) (by decide)

theorem spells_indentedMembers (level : Nat) : (ms : List (String × Json)) →
    AllFiniteMembers ms → Spells (indentedMembers level ms) (tokensOfMembers ms)
  | [], _ => .nil
  | [(k, v)], h => by
    have hvalue := Spells.mark (c := ':') rfl
      (.space (c := ' ') (by decide) (spells_indented level v h.1))
    have hmember := Spells.newLine level (.quote k hvalue)
    simpa [indentedMembers, tokensOfMembers] using hmember
  | (k, v) :: m :: ms, h => by
    have hvalue := Spells.mark (c := ':') rfl
      (.space (c := ' ') (by decide) (spells_indented level v h.1))
    have hmember := Spells.newLine level (.quote k hvalue)
    have hmembers := hmember.append
      (.mark (c := ',') rfl (spells_indentedMembers level (m :: ms) h.2)) (by decide)
    simpa [indentedMembers, tokensOfMembers] using hmembers

end

theorem tokensOfElements_ne_closeArray {vs : List Json} (hsome : vs ≠ []) (rest ts : List Token) :
    tokensOfElements vs ++ rest ≠ .closeArray :: ts := by
  have hvalue (v : Json) (rest : List Token) : tokensOf v ++ rest ≠ .closeArray :: ts := by
    cases v <;> simp [tokensOf]
  match vs, hsome with
  | [v], _ => exact hvalue v rest
  | v :: w :: vs, _ =>
    rw [tokensOfElements, List.append_assoc]
    · exact hvalue v _
    · simp

theorem tokensOfMembers_ne_closeObject {ms : List (String × Json)} (hsome : ms ≠ [])
    (rest ts : List Token) : tokensOfMembers ms ++ rest ≠ .closeObject :: ts := by
  match ms, hsome with
  | [(k, v)], _ => simp [tokensOfMembers]
  | (k, v) :: m :: ms, _ => simp [tokensOfMembers]

/-- An array that is not empty is open while its elements are read. -/
theorem build_array (stack : List Frame) {vs : List Json} (hsome : vs ≠ []) (ts : List Token) :
    build stack .value (tokensOf (.array vs) ++ ts) =
      build (.array [] :: stack) .value (tokensOfElements vs ++ .closeArray :: ts) := by
  rw [tokensOf, List.cons_append, List.cons_append, List.append_assoc, List.singleton_append, build]
  exact fun _ => tokensOfElements_ne_closeArray hsome _ _

theorem build_object (stack : List Frame) {ms : List (String × Json)} (hsome : ms ≠ [])
    (ts : List Token) : build stack .value (tokensOf (.object ms) ++ ts) =
      build stack (.member []) (tokensOfMembers ms ++ .closeObject :: ts) := by
  rw [tokensOf, List.cons_append, List.cons_append, List.append_assoc, List.singleton_append, build]
  exact fun _ => tokensOfMembers_ne_closeObject hsome _ _

mutual

theorem build_tokensOf (stack : List Frame) (ts : List Token) : (v : Json) →
    build stack .value (tokensOf v ++ ts) = build stack (.done v) ts
  | .null => by simp [tokensOf, build]
  | .bool _ => by simp [tokensOf, build]
  | .int _ => by simp [tokensOf, build]
  | .float _ => by simp [tokensOf, build]
  | .string _ => by simp [tokensOf, build]
  | .array [] => by simp [tokensOf, tokensOfElements, build]
  | .array (v :: vs) => by
    rw [build_array stack (by simp), build_tokensOfElements stack ts [] (v :: vs) (by simp)]
    rfl
  | .object [] => by simp [tokensOf, tokensOfMembers, build]
  | .object (m :: ms) => by
    rw [build_object stack (by simp), build_tokensOfMembers stack ts [] (m :: ms) (by simp)]
    rfl

theorem build_tokensOfElements (stack : List Frame) (ts : List Token) (read : List Json) :
    (vs : List Json) → vs ≠ [] →
    build (.array read :: stack) .value (tokensOfElements vs ++ .closeArray :: ts) =
      build stack (.done (.array (read.reverse ++ vs))) ts
  | [v], _ => by
    rw [tokensOfElements, build_tokensOf _ _ v]
    simp [build]
  | v :: w :: vs, _ => by
    rw [tokensOfElements, List.append_assoc, List.cons_append, build_tokensOf _ _ v, build,
      build_tokensOfElements stack ts (v :: read) (w :: vs) (by simp)]
    · simp
    · simp

theorem build_tokensOfMembers (stack : List Frame) (ts : List Token)
    (read : List (String × Json)) : (ms : List (String × Json)) → ms ≠ [] →
    build stack (.member read) (tokensOfMembers ms ++ .closeObject :: ts) =
      build stack (.done (.object (read.reverse ++ ms))) ts
  | [(k, v)], _ => by
    rw [tokensOfMembers, List.cons_append, List.cons_append, build, build_tokensOf _ _ v]
    simp [build]
  | (k, v) :: m :: ms, _ => by
    rw [tokensOfMembers, List.append_assoc, List.cons_append, List.cons_append, build,
      List.cons_append, build_tokensOf _ _ v, build,
      build_tokensOfMembers stack ts ((k, v) :: read) (m :: ms) (by simp)]
    · simp
    · simp

end

/-- What is written is read back, in both layouts. -/
theorem read?_of_spells {text : List Char} {v : Json} (h : Spells text (tokensOf v)) :
    read? (String.ofList text) = some v := by
  have htokens := h [] trivial
  rw [List.append_nil, show tokens [] = some [] by rw [tokens]] at htokens
  rw [read?, String.toList_ofList, htokens, Option.map_some, Option.bind_eq_bind,
    Option.bind_some, build_tokensOf]
  rfl

theorem read?_text {v : Json} (h : v.AllFinite) : read? v.text = some v :=
  read?_of_spells (spells_compact v h)

theorem read?_prettyText {v : Json} (h : v.AllFinite) : read? v.prettyText = some v :=
  read?_of_spells (spells_indented 0 v h)

end Sift.Json

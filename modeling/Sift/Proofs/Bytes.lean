import Sift.Proofs.ComparisonReading

/-!
# Bytes and cuts

A place in a text is given by a number of bytes. The text can be cut there only if the place
lies between two characters, and a class of ASCII characters can be looked for byte by byte,
because no byte of a longer character is one of them.

`cut?` gives the two parts of a text before and after a byte, and `Narrow` is a class of ASCII
characters.
-/

namespace Sift.Text

def cut? : List Char → Nat → Option (List Char × List Char)
  | s, 0 => some ([], s)
  | [], _ + 1 => none
  | c :: s, n + 1 =>
    if c.utf8Size ≤ n + 1 then
      (cut? s (n + 1 - c.utf8Size)).map fun (front, after) => (c :: front, after)
    else none

def cutTo? (s : List Char) (n : Nat) : Option (List Char) := (cut? s n).map Prod.fst

def cutFrom? (s : List Char) (n : Nat) : Option (List Char) := (cut? s n).map Prod.snd

theorem cut?_byteLength (front after : List Char) :
    cut? (front ++ after) (byteLength front) = some (front, after) := by
  induction front with
  | nil => cases after <;> rfl
  | cons c s ih =>
    have hsize := c.utf8Size_pos
    obtain ⟨n, hn⟩ : ∃ n, byteLength (c :: s) = n + 1 :=
      Nat.exists_eq_succ_of_ne_zero (by rw [byteLength_cons]; omega)
    have hle : c.utf8Size ≤ n + 1 := by rw [← hn, byteLength_cons]; omega
    have hrest : n + 1 - c.utf8Size = byteLength s := by rw [← hn, byteLength_cons]; omega
    rw [hn, List.cons_append, cut?, if_pos hle, hrest, ih]
    rfl

theorem eq_append_of_cut? {s front after : List Char} {n : Nat}
    (h : cut? s n = some (front, after)) : s = front ++ after ∧ n = byteLength front := by
  fun_induction cut? s n generalizing front with
  | case1 => simp_all
  | case2 => cases h
  | case3 c s n hle ih =>
    obtain ⟨⟨front', after'⟩, hcut, heq⟩ := Option.map_eq_some_iff.1 h
    obtain ⟨rfl, rfl⟩ := Prod.mk.inj heq
    obtain ⟨rfl, hn⟩ := ih hcut
    exact ⟨rfl, by rw [byteLength_cons]; omega⟩
  | case4 => cases h

theorem cutTo?_byteLength (front after : List Char) :
    cutTo? (front ++ after) (byteLength front) = some front := by
  rw [cutTo?, cut?_byteLength]
  rfl

theorem cutFrom?_byteLength (front after : List Char) :
    cutFrom? (front ++ after) (byteLength front) = some after := by
  rw [cutFrom?, cut?_byteLength]
  rfl

theorem cutFrom?_eq_some_iff {s after : List Char} {n : Nat} :
    cutFrom? s n = some after ↔ ∃ front, s = front ++ after ∧ n = byteLength front := by
  constructor
  · intro h
    obtain ⟨⟨front, _⟩, hcut, rfl⟩ := Option.map_eq_some_iff.1 h
    exact ⟨front, eq_append_of_cut? hcut⟩
  · rintro ⟨front, rfl, rfl⟩
    exact cutFrom?_byteLength front after

theorem cutFrom?_of_within {text : List Char} {c : Cursor} (h : c.Within text) :
    cutFrom? text c.offset = some c.rest :=
  cutFrom?_eq_some_iff.2 h

/-- There are as many bytes ahead as there are behind a cut. -/
theorem byteLength_of_cutFrom? {s after : List Char} {n : Nat} (h : cutFrom? s n = some after) :
    n + byteLength after = byteLength s := by
  obtain ⟨front, rfl, rfl⟩ := cutFrom?_eq_some_iff.1 h
  rw [byteLength_append]

/-- The bytes of a text, each as the character with its number. -/
def bytes (s : List Char) : List Char := (s.flatMap String.utf8EncodeChar).map Char.ofUInt8

def isAscii (c : Char) : Bool := c.toNat < 128

def Narrow (p : Char → Bool) : Prop := ∀ c, p c = true → isAscii c = true

@[simp] theorem bytes_nil : bytes [] = [] := rfl

theorem bytes_cons (c : Char) (s : List Char) :
    bytes (c :: s) = (String.utf8EncodeChar c).map Char.ofUInt8 ++ bytes s := by
  simp [bytes]

theorem length_bytes (s : List Char) : (bytes s).length = byteLength s := by
  induction s with
  | nil => rfl
  | cons c s ih => rw [bytes_cons, List.length_append, List.length_map,
      String.length_utf8EncodeChar, ih, byteLength_cons]

theorem toNat_ofUInt8 (b : UInt8) : (Char.ofUInt8 b).toNat = b.toNat := rfl

theorem bytes_cons_ascii {c : Char} (h : isAscii c = true) (s : List Char) :
    bytes (c :: s) = c :: bytes s := by
  have hc : c.toNat < 128 := by simpa [isAscii] using h
  have hle : c.val.toNat ≤ 127 := Nat.le_of_lt_succ hc
  have hbyte : Char.ofUInt8 (UInt8.ofNat c.val.toNat) = c := by
    apply Char.toNat_inj.1
    rw [toNat_ofUInt8]
    exact Nat.mod_eq_of_lt (Nat.lt_of_lt_of_le hc (by decide))
  rw [bytes_cons, String.utf8EncodeChar]
  simp only [if_pos hle, List.map_cons, List.map_nil, hbyte, List.cons_append, List.nil_append]

/-- The first byte of a longer character is not an ASCII character. -/
theorem bytes_cons_not_ascii {c : Char} (h : isAscii c = false) (s : List Char) :
    ∃ b bs, bytes (c :: s) = b :: bs ∧ isAscii b = false := by
  have hc : ¬ c.val.toNat ≤ 127 := by
    have hge : ¬ c.toNat < 128 := by simpa [isAscii] using h
    exact fun hle => hge (Nat.lt_succ_of_le hle)
  have hlead {b : Nat} (hb : 128 ≤ b) (hb' : b < 256) :
      isAscii (Char.ofUInt8 (UInt8.ofNat b)) = false := by
    have htoNat : (UInt8.ofNat b).toNat = b := Nat.mod_eq_of_lt hb'
    rw [isAscii, toNat_ofUInt8, htoNat, decide_eq_false_iff_not]
    omega
  rw [bytes_cons, String.utf8EncodeChar]
  simp only [if_neg hc]
  split
  · exact ⟨_, _, rfl, hlead (by omega) (by omega)⟩
  · split
    · exact ⟨_, _, rfl, hlead (by omega) (by omega)⟩
    · exact ⟨_, _, rfl, hlead (by omega) (by omega)⟩

theorem narrow_eq {x : Char} (hx : isAscii x = true) : Narrow fun c => c = x := by
  intro c hc
  obtain rfl := of_decide_eq_true hc
  exact hx

theorem Narrow.or {p q : Char → Bool} (hp : Narrow p) (hq : Narrow q) :
    Narrow fun c => p c || q c := by
  intro c hc
  rcases Bool.or_eq_true_iff.1 hc with hc | hc
  · exact hp c hc
  · exact hq c hc

theorem narrow_isDigit : Narrow isDigit := by
  intro c hc
  have h9 : ('9' : Char).val.toNat = 57 := rfl
  simp only [isDigit, Bool.and_eq_true, decide_eq_true_eq, Char.le_def,
    UInt32.le_iff_toNat_le] at hc
  simp only [isAscii, Char.toNat, decide_eq_true_eq]
  omega

theorem narrow_isLetter : Narrow isLetter := by
  intro c hc
  have hz : ('z' : Char).val.toNat = 122 := rfl
  have hZ : ('Z' : Char).val.toNat = 90 := rfl
  simp only [isLetter, Bool.or_eq_true, Bool.and_eq_true, decide_eq_true_eq, Char.le_def,
    UInt32.le_iff_toNat_le] at hc
  simp only [isAscii, Char.toNat, decide_eq_true_eq]
  omega

theorem narrow_isBlank : Narrow isBlank :=
  ((((narrow_eq (by decide)).or (narrow_eq (by decide))).or (narrow_eq (by decide))).or
    (narrow_eq (by decide))).or (narrow_eq (by decide))

theorem narrow_isFieldChar : Narrow isFieldChar :=
  ((narrow_isLetter.or narrow_isDigit).or (narrow_eq (by decide))).or (narrow_eq (by decide))

theorem narrow_isWordChar : Narrow isWordChar :=
  ((narrow_isLetter.or narrow_isDigit).or (narrow_eq (by decide))).or (narrow_eq (by decide))

theorem narrow_startsWord : Narrow startsWord := narrow_isLetter.or (narrow_eq (by decide))

theorem narrow_isSymbolChar : Narrow isSymbolChar := by
  have hall : "!@#$%^*~\x60?".toList.all isAscii = true := by decide
  intro c hc
  exact List.all_eq_true.1 hall c (of_decide_eq_true hc)

end Sift.Text

namespace Sift.Grammar

open Sift.Text

theorem utf8Size_of_isAscii {c : Char} (h : isAscii c = true) : c.utf8Size = 1 := by
  have hlength := length_bytes [c]
  rw [bytes_cons_ascii h] at hlength
  simpa using hlength.symm

theorem byteLength_of_run {s : List Char} (h : Run isAscii s) : byteLength s = s.length := by
  induction s with
  | nil => rfl
  | cons c s ih =>
    obtain ⟨hc, hs⟩ := (run_cons _ _ _).1 h
    rw [byteLength_cons, utf8Size_of_isAscii hc, ih hs, List.length_cons, Nat.add_comm]

theorem bytes_append_of_run {s : List Char} (h : Run isAscii s) (after : List Char) :
    bytes (s ++ after) = s ++ bytes after := by
  induction s with
  | nil => rfl
  | cons c s ih =>
    obtain ⟨hc, hs⟩ := (run_cons _ _ _).1 h
    rw [List.cons_append, bytes_cons_ascii hc, ih hs, List.cons_append]

theorem Run.isAscii {p : Char → Bool} (hp : Narrow p) {s : List Char} (h : Run p s) :
    Run isAscii s := fun c hc => hp c (h c hc)

theorem stops_bytes {p : Char → Bool} (hp : Narrow p) {s : List Char} (h : Stops p s) :
    Stops p (bytes s) := by
  cases s with
  | nil => exact trivial
  | cons c s =>
    cases hc : Text.isAscii c with
    | true =>
      rw [bytes_cons_ascii hc]
      exact h
    | false =>
      obtain ⟨b, bs, hbytes, hb⟩ := bytes_cons_not_ascii hc s
      rw [hbytes, stops_cons]
      apply Bool.of_not_eq_true
      intro hpb
      rw [hp b hpb] at hb
      cases hb

/-- Counted in bytes or in characters, a class of ASCII characters takes up the same. -/
theorem takeWhile_bytes {p : Char → Bool} (hp : Narrow p) (s : List Char) :
    (bytes s).takeWhile p = s.takeWhile p := by
  obtain ⟨run, after, rfl, hrun, hend⟩ := exists_run_append p s
  rw [bytes_append_of_run (hrun.isAscii hp), takeWhile_run hrun (stops_bytes hp hend),
    takeWhile_run hrun hend]

theorem any_head?_bytes {p : Char → Bool} (hp : Narrow p) (s : List Char) :
    (bytes s).head?.any p = s.head?.any p := by
  cases s with
  | nil => rfl
  | cons c s =>
    cases hc : Text.isAscii c with
    | true => rw [bytes_cons_ascii hc, List.head?_cons, List.head?_cons]
    | false =>
      have hnot {x : Char} (hx : Text.isAscii x = false) : p x = false := by
        apply Bool.of_not_eq_true
        intro hpx
        rw [hp x hpx] at hx
        cases hx
      obtain ⟨b, bs, hbytes, hb⟩ := bytes_cons_not_ascii hc s
      simp [hbytes, hnot hb, hnot hc]

theorem head?_bytes_eq_some_iff {x : Char} (hx : isAscii x = true) (s : List Char) :
    (bytes s).head? = some x ↔ s.head? = some x := by
  have hany (o : Option Char) : o.any (fun c => c = x) = true ↔ o = some x := by
    cases o <;> simp
  rw [← hany, ← hany, any_head?_bytes (narrow_eq hx)]

theorem cutTo?_of_run {s : List Char} (h : Run isAscii s) (after : List Char) :
    cutTo? (s ++ after) s.length = some s := by
  rw [← byteLength_of_run h, cutTo?_byteLength]

theorem cutFrom?_of_run {s : List Char} (h : Run isAscii s) (after : List Char) :
    cutFrom? (s ++ after) s.length = some after := by
  rw [← byteLength_of_run h, cutFrom?_byteLength]

theorem narrow_startsOperator : Narrow startsOperator := by
  refine narrow_isSymbolChar.or fun c hc => ?_
  have hall : ['=', '<', '>'].all Text.isAscii = true := by decide
  exact List.all_eq_true.1 hall c (of_decide_eq_true hc)

end Sift.Grammar

import Sift.Text.Blank

/-!
# Reading positions

A cursor is what is left of a text together with the number of bytes already
read, so every position it reports lies between two characters. Moving it never
adds to what is left.
-/

namespace Sift.Text

structure Cursor where
  offset : Nat
  rest : List Char
deriving DecidableEq

namespace Cursor

def start (text : List Char) : Cursor := ⟨0, text⟩

def drop (c : Cursor) (n : Nat) : Cursor :=
  ⟨c.offset + byteLength (c.rest.take n), c.rest.drop n⟩

def skipWhile (c : Cursor) (p : Char → Bool) : Cursor :=
  c.drop (c.rest.takeWhile p).length

def skipBlanks (c : Cursor) : Cursor := c.skipWhile isBlank

/-- The cursor has read some part of `text` and the rest is still before it. -/
def Within (text : List Char) (c : Cursor) : Prop :=
  ∃ read, text = read ++ c.rest ∧ c.offset = byteLength read

theorem within_start (text : List Char) : (start text).Within text :=
  ⟨[], rfl, rfl⟩

theorem Within.drop {text : List Char} {c : Cursor} (h : c.Within text) (n : Nat) :
    (c.drop n).Within text := by
  obtain ⟨read, htext, hoffset⟩ := h
  refine ⟨read ++ c.rest.take n, ?_, ?_⟩
  · simp [Cursor.drop, htext]
  · simp [Cursor.drop, hoffset]

@[simp]
theorem rest_drop (c : Cursor) (n : Nat) : (c.drop n).rest = c.rest.drop n := rfl

theorem length_rest_drop_le (c : Cursor) (n : Nat) :
    (c.drop n).rest.length ≤ c.rest.length := by
  simp

theorem length_rest_skipWhile_le (c : Cursor) (p : Char → Bool) :
    (c.skipWhile p).rest.length ≤ c.rest.length :=
  length_rest_drop_le _ _

theorem rest_skipWhile (c : Cursor) (p : Char → Bool) :
    (c.skipWhile p).rest = c.rest.dropWhile p := by
  simp only [skipWhile, rest_drop]
  induction c.rest with
  | nil => rfl
  | cons x xs ih =>
    by_cases hx : p x = true <;> simp [hx, ih]

end Cursor

end Sift.Text

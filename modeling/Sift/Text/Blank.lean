/-!
# Blank characters and the pieces between them

Two classes of blank characters are in use. Text that comes from outside is
trimmed by the Unicode property `White_Space`; inside an expression only the
five ASCII blanks separate tokens. Every ASCII blank is white space, so trimming
never leaves a blank at either end of a text.
-/

namespace Sift.Text

/-- The Unicode property `White_Space`, a closed list of 25 characters. -/
def isWhiteSpace (c : Char) : Bool :=
  let n := c.toNat
  (0x09 ≤ n && n ≤ 0x0D) || n = 0x20 || n = 0x85 || n = 0xA0 || n = 0x1680 ||
    (0x2000 ≤ n && n ≤ 0x200A) || n = 0x2028 || n = 0x2029 || n = 0x202F ||
    n = 0x205F || n = 0x3000

/-- Space, tab, line feed, form feed and carriage return; the vertical tab is
not among them. -/
def isBlank (c : Char) : Bool :=
  c = ' ' || c = '\t' || c = '\n' || c = '\x0c' || c = '\r'

def isDigit (c : Char) : Bool := '0' ≤ c && c ≤ '9'

def isLetter (c : Char) : Bool := ('a' ≤ c && c ≤ 'z') || ('A' ≤ c && c ≤ 'Z')

def trim (s : List Char) : List Char :=
  ((s.dropWhile isWhiteSpace).reverse.dropWhile isWhiteSpace).reverse

def trimString (s : String) : String := String.ofList (trim s.toList)

/-- The pieces between separators; there is always one more piece than there are
separators, so the empty text has one empty piece. -/
def splitWhere (separates : Char → Bool) : List Char → List (List Char)
  | [] => [[]]
  | c :: cs =>
    if separates c then [] :: splitWhere separates cs
    else
      match splitWhere separates cs with
      | [] => [[c]]
      | piece :: pieces => (c :: piece) :: pieces

def splitAt (separator : Char) (s : List Char) : List (List Char) :=
  splitWhere (· = separator) s

def takeChar (allowed : List Char) : List Char → Option (List Char)
  | [] => none
  | c :: s => if c ∈ allowed then some s else none

/-- The maximal runs of characters that are not white space. -/
def words (s : List Char) : List (List Char) :=
  (splitWhere isWhiteSpace s).filter (· ≠ [])

/-- Lower case of a letter as far as ASCII text can tell: besides `A` to `Z` the
Kelvin sign is the only character whose lower case is an ASCII letter. -/
def lowerChar (c : Char) : Char :=
  if 'A' ≤ c && c ≤ 'Z' then Char.ofNat (c.toNat + 32)
  else if c.toNat = 0x212A then 'k'
  else c

def byteLength (s : List Char) : Nat := s.foldr (fun c n => c.utf8Size + n) 0

@[simp]
theorem byteLength_nil : byteLength [] = 0 := rfl

@[simp]
theorem byteLength_cons (c : Char) (s : List Char) :
    byteLength (c :: s) = c.utf8Size + byteLength s := rfl

@[simp]
theorem byteLength_append (s t : List Char) :
    byteLength (s ++ t) = byteLength s + byteLength t := by
  induction s with
  | nil => simp
  | cons c s ih => rw [List.cons_append, byteLength_cons, byteLength_cons, ih, Nat.add_assoc]

theorem byteLength_eq_zero_iff (s : List Char) : byteLength s = 0 ↔ s = [] := by
  cases s with
  | nil => simp
  | cons c s =>
    have hsize := c.utf8Size_pos
    simp only [byteLength_cons, reduceCtorEq, iff_false]
    omega

theorem splitWhere_ne_nil (separates : Char → Bool) (s : List Char) :
    splitWhere separates s ≠ [] := by
  cases s with
  | nil => simp [splitWhere]
  | cons c cs =>
    rw [splitWhere]
    split
    · simp
    · split <;> simp

end Sift.Text

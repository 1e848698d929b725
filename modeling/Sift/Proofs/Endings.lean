import Sift.Proofs.Lexing

/-!
# What follows a part of an expression

Names, numbers, words and operators are as long as they can be, so the text behind a part
says where it ends. A text can be put in the place of another one behind a part if it ends
all that the other one ends; a blank and a closing parenthesis end every part of a
comparison. Strict sequences of items are then the same before either text. Lenient ones are
too if both begin with a closing parenthesis, which no comparison reaches over.

`EndsLike` is one direction of this, and `SameEnd` both: no part of a comparison can tell
which of the two texts follows it.
-/

namespace Sift.Grammar

open Sift.Text

/-- Where the first text ends a part of a comparison, the second one ends it too. -/
structure EndsLike (s t : List Char) : Prop where
  stops : ∀ p : Char → Bool, p ')' = false → p ' ' = false → Stops p s → Stops p t
  fraction : StartsFraction t → StartsFraction s

theorem startsFraction_point (s : List Char) :
    StartsFraction ('.' :: s) ↔ ¬ Stops isDigit s := by
  cases s <;> simp [StartsFraction]

theorem not_startsFraction_cons {c : Char} (hc : c ≠ '.') (s : List Char) :
    ¬ StartsFraction (c :: s) := by
  simp [StartsFraction, hc]

namespace EndsLike

theorem refl (s : List Char) : EndsLike s s := ⟨fun _ _ _ h => h, id⟩

theorem blank (s t : List Char) : EndsLike s (' ' :: t) :=
  ⟨fun _ _ hp _ => hp, fun h => absurd h (not_startsFraction_cons (by decide) t)⟩

theorem closing (s t : List Char) : EndsLike s (')' :: t) :=
  ⟨fun _ hp _ _ => hp, fun h => absurd h (not_startsFraction_cons (by decide) t)⟩

theorem cons (c : Char) {s t : List Char} (h : EndsLike s t) : EndsLike (c :: s) (c :: t) := by
  refine ⟨fun _ _ _ hc => hc, ?_⟩
  by_cases hc : c = '.'
  · subst hc
    rw [startsFraction_point, startsFraction_point]
    exact mt (h.stops isDigit (by decide) (by decide))
  · exact fun hfraction => absurd hfraction (not_startsFraction_cons hc t)

theorem append (u : List Char) {s t : List Char} (h : EndsLike s t) :
    EndsLike (u ++ s) (u ++ t) := by
  induction u with
  | nil => exact h
  | cons c u ih => exact ih.cons c

variable {s t : List Char}

theorem isOperator {op : List Char} (h : EndsLike s t) (hop : IsOperator op s) :
    IsOperator op t := by
  have hequal := h.stops (· = '=') (by decide) (by decide)
  cases hop with
  | unequal => exact .unequal
  | atLeast => exact .atLeast
  | atMost => exact .atMost
  | equal => exact .equal
  | greater hend => exact .greater (hequal hend)
  | less hend => exact .less (hequal hend)
  | symbol hc hend hunequal =>
    exact .symbol hc (h.stops isSymbolChar (by decide) (by decide) hend) fun hc' =>
      hequal (hunequal hc')
  | symbols hc hd => exact .symbols hc hd

theorem isValue {value : List Char} {literal : Literal} (h : EndsLike s t)
    (hvalue : IsValue value s literal) : IsValue value t literal := by
  have hdigit := h.stops isDigit (by decide) (by decide)
  have hword := h.stops isWordChar (by decide) (by decide)
  cases hvalue with
  | whole negative hsome hdigits hend hfraction =>
    exact .whole negative hsome hdigits (hdigit hend) (mt h.fraction hfraction)
  | fraction negative hsome hdigits hsome' hdigits' hend =>
    exact .fraction negative hsome hdigits hsome' hdigits' (hdigit hend)
  | quoted hraw => exact .quoted hraw
  | keyword hmem hend => exact .keyword hmem (hword hend)
  | word hstart hrun hend hkeyword => exact .word hstart hrun (hword hend) hkeyword

theorem isComparison {run : List Char} {k : Comparison} (h : EndsLike s t)
    (hk : IsComparison run s k) : IsComparison run t k := by
  obtain ⟨hsome, hfield, hgap, hoperator, hgap', hvalue⟩ := hk
  exact ⟨hsome, hfield, hgap, (h.append _).isOperator hoperator, hgap', h.isValue hvalue⟩

theorem items {text : List Char} {es : List Expr} {ks : List Connector} (h : EndsLike s t)
    (hitems : Items true text s es ks) : Items true text t es ks := by
  induction hitems generalizing t with
  | nil => exact .nil
  | blank hc _ ih => exact .blank hc (ih h)
  | connector k _ ih => exact .connector k (ih h)
  | group _ hk _ ihinner ih => exact .group (ihinner ((h.append _).cons _)) hk (ih h)
  | comparison hk _ ih => exact .comparison ((h.append _).isComparison hk) (ih h)
  | stray hstrict => cases hstrict

end EndsLike

/-- A comparison that has begun has its operator before the next closing parenthesis. -/
theorem startsComparison_closing (text : List Char) {s : List Char} (t : List Char)
    (h : StartsComparison (text ++ ')' :: s)) : StartsComparison (text ++ ')' :: t) := by
  obtain ⟨field, gap, operator, after, hsplit, hsome, hfield, hgap, hoperator⟩ := h
  obtain ⟨hfield', -, -, hgap', hoperator', -⟩ := mark_classes (c := ')') (by decide)
  have hmem : ')' ∉ field ++ gap ++ operator := by
    simp only [List.mem_append, not_or]
    exact ⟨⟨fun h => by simp [hfield _ h] at hfield', fun h => by simp [hgap _ h] at hgap'⟩,
      fun h => by simp [hoperator.run _ h] at hoperator'⟩
  obtain ⟨front, rfl, hafter⟩ : ∃ front, text = field ++ gap ++ operator ++ front ∧
      after = front ++ ')' :: s := by
    rcases List.append_eq_append_iff.1 hsplit with ⟨u, hhead, hu⟩ | ⟨front, htext, hafter⟩
    · cases u with
      | nil => exact ⟨[], by simpa using hhead.symm, by simpa using hu.symm⟩
      | cons c u =>
        obtain ⟨rfl, -⟩ := List.cons.inj hu
        exact absurd (hhead ▸ by simp) hmem
    · exact ⟨front, htext, hafter⟩
  subst hafter
  exact ⟨field, gap, operator, front ++ ')' :: t, by simp, hsome, hfield, hgap,
    ((EndsLike.closing _ t).append front).isOperator hoperator⟩

theorem startsStray_closing {c : Char} {text s : List Char} (t : List Char)
    (h : StartsStray (c :: (text ++ ')' :: s))) : StartsStray (c :: (text ++ ')' :: t)) := by
  obtain ⟨hstart, x, rest, hsplit, hx⟩ := h
  obtain ⟨rfl, -⟩ := List.cons.inj hsplit
  exact ⟨fun h => hstart (startsComparison_closing (c :: text) s h), c, _, rfl, hx⟩

/-- What stands behind the parenthesis that closes a group is nothing to its items. -/
theorem items_closing {strict : Bool} {text s : List Char} {es : List Expr}
    {ks : List Connector} (t : List Char) (h : Items strict text (')' :: s) es ks) :
    Items strict text (')' :: t) es ks := by
  generalize hs : ')' :: s = after at h
  induction h generalizing s t with
  | nil => exact .nil
  | blank hc _ ih => exact .blank hc (ih t hs)
  | connector k _ ih => exact .connector k (ih t hs)
  | group _ hk _ ihinner ih => exact .group (ihinner _ rfl) hk (ih t hs)
  | @comparison run text after k es ks hk _ ih =>
    subst hs
    exact .comparison (((EndsLike.closing _ t).append text).isComparison hk) (ih t rfl)
  | stray hstrict hc _ ih =>
    subst hs
    exact .stray hstrict (startsStray_closing t hc) (ih t rfl)

structure SameEnd (s t : List Char) : Prop where
  stops : ∀ p : Char → Bool, p ')' = false → (Stops p s ↔ Stops p t)
  fraction : StartsFraction s ↔ StartsFraction t

namespace SameEnd

/-- The end of a text and the parenthesis put behind it. -/
theorem closing : SameEnd [] [')'] :=
  ⟨fun p hp => by simp [hp], by simp [StartsFraction]⟩

theorem symm {s t : List Char} (h : SameEnd s t) : SameEnd t s :=
  ⟨fun p hp => (h.stops p hp).symm, h.fraction.symm⟩

theorem endsLike {s t : List Char} (h : SameEnd s t) : EndsLike s t :=
  ⟨fun p hp _ => (h.stops p hp).1, h.fraction.2⟩

theorem items {s t text : List Char} {es : List Expr} {ks : List Connector} (h : SameEnd s t)
    (hitems : Items true text s es ks) : Items true text t es ks :=
  h.endsLike.items hitems

end SameEnd

end Sift.Grammar

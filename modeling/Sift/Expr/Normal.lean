import Sift.Text.Blank

/-!
# The outer group

An expression is read as one group. Text that is one balanced group from its
first to its last character is taken as it is, and any other text is put in
parentheses. Parentheses between single quotes do not count, and a backslash
between quotes takes the next character with it.
-/

namespace Sift.Expr

open Sift.Text

inductive Region where
  | plain
  | quoted
  | escaped
deriving DecidableEq

/-- From `depth` open groups on, the last of them closes with the last character
and not before. -/
def closesAtEnd : Region → Nat → List Char → Bool
  | _, _, [] => false
  | .escaped, depth, _ :: s => closesAtEnd .quoted depth s
  | .quoted, depth, c :: s =>
    if c = '\'' then closesAtEnd .plain depth s
    else if c = '\\' then closesAtEnd .escaped depth s
    else closesAtEnd .quoted depth s
  | .plain, depth, c :: s =>
    if c = '\'' then closesAtEnd .quoted depth s
    else if c = '(' then closesAtEnd .plain (depth + 1) s
    else if c = ')' then
      if depth ≤ 1 then s = [] else closesAtEnd .plain (depth - 1) s
    else closesAtEnd .plain depth s

def isSingleGroup : List Char → Bool
  | '(' :: s => closesAtEnd .plain 1 s
  | _ => false

def normalizeChars (s : List Char) : List Char :=
  let trimmed := trim s
  if isSingleGroup trimmed then trimmed else '(' :: trimmed ++ [')']

/-- The text that is parsed; it always starts with a parenthesis. -/
def normalize (expression : String) : String :=
  String.ofList (normalizeChars expression.toList)

end Sift.Expr

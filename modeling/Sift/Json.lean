import Sift.Binary64.Layout

/-!
# JSON values and their text

Objects keep the order of their members. Strings are written raw except for the
characters that JSON requires to be escaped. The compact form has no white space;
the indented form has one element a line and two spaces for each level.
-/

namespace Sift

inductive Json where
  | null
  | bool (b : Bool)
  | int (i : Int)
  | float (x : Binary64)
  | string (s : String)
  | array (elements : List Json)
  | object (members : List (String × Json))

namespace Json

open Sift.Text

def hexDigit (n : Nat) : Char := Nat.digitChar n

def escapeChar (c : Char) : List Char :=
  if c = '"' then ['\\', '"']
  else if c = '\\' then ['\\', '\\']
  else if c = '\x08' then ['\\', 'b']
  else if c = '\t' then ['\\', 't']
  else if c = '\n' then ['\\', 'n']
  else if c = '\x0c' then ['\\', 'f']
  else if c = '\r' then ['\\', 'r']
  else if c.toNat < 0x20 then
    ['\\', 'u', '0', '0', hexDigit (c.toNat / 16), hexDigit (c.toNat % 16)]
  else [c]

def quote (s : String) : List Char := '"' :: s.toList.flatMap escapeChar ++ ['"']

/-- The text of a value without parts. JSON has no infinity and no NaN. -/
def scalarText : Json → List Char
  | .bool b => (if b then "true" else "false").toList
  | .int i => digitsOfInt i
  | .float x => if x.isFinite then x.jsonText else "null".toList
  | .string s => quote s
  | _ => "null".toList

mutual

def compact : Json → List Char
  | .array elements => '[' :: compactElements elements ++ [']']
  | .object members => '\x7b' :: compactMembers members ++ ['\x7d']
  | scalar => scalarText scalar

def compactElements : List Json → List Char
  | [] => []
  | [v] => compact v
  | v :: vs => compact v ++ ',' :: compactElements vs

def compactMembers : List (String × Json) → List Char
  | [] => []
  | [(k, v)] => quote k ++ ':' :: compact v
  | (k, v) :: ms => quote k ++ ':' :: compact v ++ ',' :: compactMembers ms

end

def newLine (level : Nat) : List Char := '\n' :: List.replicate (2 * level) ' '

mutual

def indented (level : Nat) : Json → List Char
  | .array [] => ['[', ']']
  | .array elements => '[' :: indentedElements (level + 1) elements ++ newLine level ++ [']']
  | .object [] => ['\x7b', '\x7d']
  | .object members =>
    '\x7b' :: indentedMembers (level + 1) members ++ newLine level ++ ['\x7d']
  | scalar => scalarText scalar

def indentedElements (level : Nat) : List Json → List Char
  | [] => []
  | [v] => newLine level ++ indented level v
  | v :: vs => newLine level ++ indented level v ++ ',' :: indentedElements level vs

def indentedMembers (level : Nat) : List (String × Json) → List Char
  | [] => []
  | [(k, v)] => newLine level ++ quote k ++ ':' :: ' ' :: indented level v
  | (k, v) :: ms =>
    newLine level ++ quote k ++ ':' :: ' ' :: indented level v ++ ',' ::
      indentedMembers level ms

end

def text (v : Json) : String := String.ofList v.compact

def prettyText (v : Json) : String := String.ofList (v.indented 0)

end Json

end Sift

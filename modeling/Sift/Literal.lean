import Sift.Json
import Sift.Time.Printer

/-!
# Literals

The scalar values of an expression. A date never comes from an expression
directly: it is what a text or a number becomes where a field asks for a date.
-/

namespace Sift

inductive Literal where
  | string (text : String)
  | int (value : Int64)
  | float (value : Binary64)
  | bool (value : Bool)
  | null
  | date (instant : Time.Instant)
deriving DecidableEq

namespace Literal

open Sift.Text

def kind : Literal → String
  | .string _ => "string"
  | .int _ => "int"
  | .float _ => "float"
  | .bool _ => "bool"
  | .null => "null"
  | .date _ => "date"

def isNull : Literal → Bool
  | .null => true
  | _ => false

/-- Equality of values: an integer and a float are compared as floats, and every
other literal is equal only to one of its own kind. -/
def sameValue : Literal → Literal → Bool
  | .int i, .float x => (Binary64.ofInt i.toInt).sameNumber x
  | .float x, .int i => (Binary64.ofInt i.toInt).sameNumber x
  | .float x, .float y => x.sameNumber y
  | a, b => a = b

/-- Plain text, strings as they are. A float always shows a point. -/
def display : Literal → String
  | .string s => s
  | .int i => String.ofList (Text.digitsOfInt i.toInt)
  | .float x => String.ofList (withFraction x.plainText)
  | .bool b => if b then "true" else "false"
  | .null => "null"
  | .date t => t.wholeText

def escapeQuoted (c : Char) : List Char :=
  if c = '\'' || c = '\\' then ['\\', c] else [c]

def notated : Literal → String
  | .string s => String.ofList ('\'' :: s.toList.flatMap escapeQuoted ++ ['\''])
  | .date t => String.ofList ('\'' :: t.wholeText.toList ++ ['\''])
  | l => l.display

def toJson : Literal → Json
  | .string s => .string s
  | .int i => .int i.toInt
  | .float x => .float x
  | .bool b => .bool b
  | .null => .null
  | .date t => .string t.fullText

end Literal

end Sift

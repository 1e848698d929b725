import Sift.Expr.Lexeme

/-!
# The grammar of filter expressions

Each part of an expression is a relation between its text, the text that comes after
it and what it denotes. What comes after matters because names, numbers, words and
operators are as long as they can be. A sequence of items carries its expressions and
its connectors side by side, and a group puts the two together.

`StartsComparison` is a field name and an operator, after which a value has to come. `IsGroup`
is a text that is one group from its first to its last character, and `IsOpenGroup` the inside
of one without the parentheses.
-/

namespace Sift.Grammar

open Sift.Text

def Run (p : Char → Bool) (text : List Char) : Prop := ∀ c ∈ text, p c = true

/-- No run of characters with the property goes on here. -/
def Stops (p : Char → Bool) : List Char → Prop
  | [] => True
  | c :: _ => p c = false

def StartsFraction : List Char → Prop
  | '.' :: c :: _ => isDigit c = true
  | _ => False

/-- The relational operators, and one or two characters for an operator of the caller's
own; either kind takes as many characters as there are. -/
inductive IsOperator : List Char → List Char → Prop
  | unequal {after : List Char} : IsOperator ['!', '='] after
  | atLeast {after : List Char} : IsOperator ['>', '='] after
  | atMost {after : List Char} : IsOperator ['<', '='] after
  | equal {after : List Char} : IsOperator ['='] after
  | greater {after : List Char} (hend : Stops (· = '=') after) : IsOperator ['>'] after
  | less {after : List Char} (hend : Stops (· = '=') after) : IsOperator ['<'] after
  | symbol {c : Char} {after : List Char} (hc : isSymbolChar c = true)
      (hend : Stops isSymbolChar after) (hunequal : c = '!' → Stops (· = '=') after) :
      IsOperator [c] after
  | symbols {c d : Char} {after : List Char} (hc : isSymbolChar c = true)
      (hd : isSymbolChar d = true) : IsOperator [c, d] after

/-- What stands between quotes and the text that it denotes. -/
inductive Quoted : List Char → List Char → Prop
  | nil : Quoted [] []
  | plain {c : Char} {raw text : List Char} (hquote : c ≠ '\'') (hescape : c ≠ '\\')
      (h : Quoted raw text) : Quoted (c :: raw) (c :: text)
  | escaped {c : Char} {raw text : List Char} (h : Quoted raw text) :
      Quoted ('\\' :: c :: raw) (c :: text)

def signed (negative : Bool) (digits : List Char) : List Char :=
  if negative then '-' :: digits else digits

def wholeNumber (negative : Bool) (digits : List Char) : Int :=
  if negative then -(natOfDigits digits : Int) else natOfDigits digits

def wholeLiteral (negative : Bool) (digits : List Char) : Literal :=
  if Int64.minValue.toInt ≤ wholeNumber negative digits ∧
      wholeNumber negative digits ≤ Int64.maxValue.toInt then
    .int (Int64.ofInt (wholeNumber negative digits))
  else .float (Binary64.ofInt (wholeNumber negative digits))

def fractionLiteral (negative : Bool) (digits fraction : List Char) : Literal :=
  .float (Binary64.ofDecimal ⟨negative, natOfDigits (digits ++ fraction), -fraction.length⟩)

def keywords : List (String × Literal) :=
  [("true", .bool true), ("false", .bool false), ("null", .null)]

inductive IsValue : List Char → List Char → Literal → Prop
  | whole (negative : Bool) {digits after : List Char} (hsome : digits ≠ [])
      (hdigits : Run isDigit digits) (hend : Stops isDigit after)
      (hfraction : ¬ StartsFraction after) :
      IsValue (signed negative digits) after (wholeLiteral negative digits)
  | fraction (negative : Bool) {digits fraction after : List Char} (hsome : digits ≠ [])
      (hdigits : Run isDigit digits) (hsome' : fraction ≠ []) (hdigits' : Run isDigit fraction)
      (hend : Stops isDigit after) :
      IsValue (signed negative (digits ++ '.' :: fraction)) after
        (fractionLiteral negative digits fraction)
  | quoted {raw text after : List Char} (h : Quoted raw text) :
      IsValue ('\'' :: raw ++ ['\'']) after (.string (String.ofList text))
  | keyword {word after : List Char} {literal : Literal}
      (h : (String.ofList word, literal) ∈ keywords) (hend : Stops isWordChar after) :
      IsValue word after literal
  | word {c : Char} {cs after : List Char} (hstart : startsWord c = true)
      (hword : Run isWordChar cs) (hend : Stops isWordChar after)
      (hkeyword : ∀ literal, (String.ofList (c :: cs), literal) ∉ keywords) :
      IsValue (c :: cs) after (.string (String.ofList (c :: cs)))

inductive IsComparison : List Char → List Char → Comparison → Prop
  | mk {field gap operator gap' value after : List Char} {literal : Literal}
      (hsome : field ≠ []) (hfield : Run isFieldChar field) (hgap : Run isBlank gap)
      (hoperator : IsOperator operator (gap' ++ value ++ after)) (hgap' : Run isBlank gap')
      (hvalue : IsValue value after literal) :
      IsComparison (field ++ gap ++ operator ++ gap' ++ value) after
        ⟨String.ofList field, String.ofList operator, literal⟩

def StartsComparison (text : List Char) : Prop :=
  ∃ field gap operator after, text = field ++ gap ++ operator ++ after ∧ field ≠ [] ∧
    Run isFieldChar field ∧ Run isBlank gap ∧ IsOperator operator after

/-- The text begins with a character that has no meaning where it stands. -/
def StartsStray (text : List Char) : Prop :=
  ¬ StartsComparison text ∧
    ∃ c rest, text = c :: rest ∧ isBlank c = false ∧ c ∉ ['(', ')', '&', '|']

/-- The connector of a group in which the given connectors are written. Two different
connectors have none. -/
inductive Governs : List Connector → Connector → Prop
  | default : Governs [] .and
  | written {connectors : List Connector} {k : Connector} (hsome : connectors ≠ [])
      (hsame : ∀ c ∈ connectors, c = k) : Governs connectors k

/-- A sequence of items with its expressions and its connectors in the order in which
they are written. Only a strict reading has no stray characters. -/
inductive Items (strict : Bool) :
    List Char → List Char → List Expr → List Connector → Prop
  | nil {after : List Char} : Items strict [] after [] []
  | blank {c : Char} {text after : List Char} {es : List Expr} {ks : List Connector}
      (hc : isBlank c = true) (h : Items strict text after es ks) :
      Items strict (c :: text) after es ks
  | connector (k : Connector) {text after : List Char} {es : List Expr} {ks : List Connector}
      (h : Items strict text after es ks) : Items strict (k.glyph :: text) after es (k :: ks)
  | group {inner text after : List Char} {ds es : List Expr} {js ks : List Connector}
      {k : Connector} (hinner : Items strict inner (')' :: (text ++ after)) ds js)
      (hk : Governs js k) (h : Items strict text after es ks) :
      Items strict ('(' :: inner ++ ')' :: text) after (.group k ds :: es) ks
  | comparison {run text after : List Char} {c : Comparison} {es : List Expr}
      {ks : List Connector} (hc : IsComparison run (text ++ after) c)
      (h : Items strict text after es ks) :
      Items strict (run ++ text) after (.comparison c :: es) ks
  | stray {c : Char} {text after : List Char} {es : List Expr} {ks : List Connector}
      (hstrict : strict = false) (hc : StartsStray (c :: (text ++ after)))
      (h : Items strict text after es ks) : Items strict (c :: text) after es ks

def IsGroup (strict : Bool) (text : List Char) (e : Expr) : Prop :=
  ∃ inner es ks k, text = '(' :: inner ++ [')'] ∧ Items strict inner [')'] es ks ∧
    Governs ks k ∧ e = .group k es

def IsOpenGroup (strict : Bool) (text : List Char) (e : Expr) : Prop :=
  ∃ es ks k, Items strict text [] es ks ∧ Governs ks k ∧ e = .group k es

/-- A whole expression is one group if it can be, and the inside of one otherwise. -/
def IsExpression (strict : Bool) (text : List Char) (e : Expr) : Prop :=
  IsGroup strict text e ∨ ((¬ ∃ other, IsGroup strict text other) ∧ IsOpenGroup strict text e)

end Sift.Grammar

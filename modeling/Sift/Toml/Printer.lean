import Sift.Binary64.Layout
import Sift.Toml

/-!
# TOML text

A string is written in the first form that holds it without an escape. A document
writes the plain entries of a table first and then a section for every table and
every array of tables below it, in the order of the entries.
-/

namespace Sift.Toml

open Sift.Text

inductive StringForm where
  | basic
  | literal
  | longBasic
  | longLiteral
deriving DecidableEq

def isControl (c : Char) : Bool := c.toNat < 0x20 || c.toNat = 0x7f

def needsEscape (c : Char) : Bool := isControl c && c ≠ '\t' && c ≠ '\n'

def longestRun (quote : Char) (run : Nat) : List Char → Nat
  | [] => run
  | c :: s => if c = quote then longestRun quote (run + 1) s else max run (longestRun quote 0 s)

namespace StringForm

def holds (form : StringForm) (s : List Char) : Bool :=
  !s.any needsEscape &&
    match form with
    | basic => !s.contains '\\' && !s.contains '"' && !s.contains '\n'
    | literal => !s.contains '\x27' && !s.contains '\n'
    | longBasic => !s.contains '\\' && longestRun '"' 0 s ≤ 2
    | longLiteral => longestRun '\x27' 0 s ≤ 2

def ofText (s : List Char) : StringForm :=
  match [basic, literal, longBasic, longLiteral].find? (·.holds s) with
  | some form => form
  | none => if s.contains '\n' then longBasic else basic

end StringForm

def hexDigit (n : Nat) : Char := (Nat.digitChar n).toUpper

def escape (c : Char) : List Char :=
  if c = '\x08' then ['\\', 'b']
  else if c = '\t' then ['\\', 't']
  else if c = '\n' then ['\\', 'n']
  else if c = '\x0c' then ['\\', 'f']
  else if c = '\r' then ['\\', 'r']
  else if c = '\\' then ['\\', '\\']
  else if isControl c then ['\\', 'u', '0', '0', hexDigit (c.toNat / 16), hexDigit (c.toNat % 16)]
  else [c]

/-- The text between basic quotes. A long string keeps its newlines, and as many
quotes as may stand side by side in it; `quotes` of them come right before. -/
def basicText (long : Bool) (quotes : Nat) : List Char → List Char
  | [] => []
  | c :: s =>
    if c = '"' then
      if long && quotes < 2 then '"' :: basicText long (quotes + 1) s
      else '\\' :: '"' :: basicText long 0 s
    else if c = '\n' && long then '\n' :: basicText long 0 s
    else escape c ++ basicText long 0 s

/-- The first newline in a long string does not count, so one goes in front of a text
with newlines. -/
def afterOpening (s : List Char) : List Char := if s.contains '\n' then ['\n'] else []

def StringForm.write (form : StringForm) (s : List Char) : List Char :=
  match form with
  | basic => '"' :: basicText false 0 s ++ ['"']
  | literal => '\x27' :: s ++ ['\x27']
  | longBasic => ['"', '"', '"'] ++ afterOpening s ++ basicText true 0 s ++ ['"', '"', '"']
  | longLiteral => ['\x27', '\x27', '\x27'] ++ afterOpening s ++ s ++ ['\x27', '\x27', '\x27']

def stringText (s : List Char) : List Char := (StringForm.ofText s).write s

/-- A key is bare if it can be, and never goes over several lines. -/
def keyText (s : List Char) : List Char :=
  if s ≠ [] && s.all isBareChar then s
  else
    match [StringForm.basic, .literal].find? (·.holds s) with
    | some form => form.write s
    | none => StringForm.basic.write s

def pathText (path : List String) : List Char :=
  ['.'].intercalate (path.map fun key => keyText key.toList)

/-- An array is on one line, unless the elements are spread out and there are at
least two. -/
def arrayText (spread : Bool) (elements : List (List Char)) : List Char :=
  if spread && 2 ≤ elements.length then
    '[' :: elements.flatMap (fun e => '\n' :: List.replicate 4 ' ' ++ e ++ [',']) ++ ['\n', ']']
  else '[' :: [',', ' '].intercalate elements ++ [']']

def inlineTableText (entries : List (List Char)) : List Char :=
  if entries = [] then ['\x7b', '\x7d']
  else '\x7b' :: ' ' :: [',', ' '].intercalate entries ++ [' ', '\x7d']

def entryText (key : String) (value : List Char) : List Char :=
  keyText key.toList ++ [' ', '=', ' '] ++ value

namespace Value

mutual

def chars (spread : Bool) : Value → List Char
  | .string s => stringText s.toList
  | .integer i => digitsOfInt i.toInt
  | .float x => x.tomlText
  | .boolean b => (if b then "true" else "false").toList
  | .dateTime d => d.text
  | .array elements => arrayText spread (charsOfElements spread elements)
  | .table entries => inlineTableText (charsOfEntries spread entries)

def charsOfElements (spread : Bool) : List Value → List (List Char)
  | [] => []
  | v :: vs => chars spread v :: charsOfElements spread vs

def charsOfEntries (spread : Bool) : List (String × Value) → List (List Char)
  | [] => []
  | (key, v) :: entries => entryText key (chars spread v) :: charsOfEntries spread entries

end

def holdsTable : Value → Bool
  | .array elements => elements.any isTable
  | _ => false

/-- Entries without tables, then arrays with tables in them, then tables. -/
def tablesLast (entries : List (String × Value)) : List (String × Value) :=
  entries.filter (fun e => !e.2.isTable && !e.2.holdsTable) ++
    entries.filter (fun e => e.2.holdsTable) ++ entries.filter (fun e => e.2.isTable)

mutual

def arranged : Value → Value
  | .array elements => .array (arrangedElements elements)
  | .table entries => .table (tablesLast (arrangedEntries entries))
  | v => v

def arrangedElements : List Value → List Value
  | [] => []
  | v :: vs => arranged v :: arrangedElements vs

def arrangedEntries : List (String × Value) → List (String × Value)
  | [] => []
  | (key, v) :: entries => (key, arranged v) :: arrangedEntries entries

end

def inlineText (v : Value) : String := String.ofList (v.arranged.chars false)

def isSectioned : Value → Bool
  | .table _ => true
  | .array [] => false
  | .array elements => elements.all isTable
  | _ => false

end Value

def body (entries : List (String × Value)) : List Char :=
  (entries.filter fun e => !e.2.isSectioned).flatMap fun (key, v) =>
    entryText key (v.chars true) ++ ['\n']

/-- A table that holds sections and nothing else needs no header. -/
def needsHeader (entries : List (String × Value)) : Bool :=
  entries.isEmpty || entries.any fun e => !e.2.isSectioned

mutual

def sections (path : List String) : List (String × Value) → List (List Char)
  | [] => []
  | (key, .table entries) :: others =>
    let path' := path ++ [key]
    let header := '[' :: pathText path' ++ [']', '\n']
    (if needsHeader entries then [header ++ body entries] else []) ++
      sections path' entries ++ sections path others
  | (key, .array elements) :: others =>
    (if (Value.array elements).isSectioned then elementSections (path ++ [key]) elements else []) ++
      sections path others
  | _ :: others => sections path others

def elementSections (path : List String) : List Value → List (List Char)
  | [] => []
  | .table entries :: others =>
    ('[' :: '[' :: pathText path ++ [']', ']', '\n'] ++ body entries) ::
      (sections path entries ++ elementSections path others)
  | _ :: others => elementSections path others

end

def document (entries : List (String × Value)) : List Char :=
  let first := body entries
  ['\n'].intercalate ((if first = [] then [] else [first]) ++ sections [] entries)

end Sift.Toml

import Sift.Expr.Lexeme
import Sift.Expr.Normal

/-!
# From lexemes to expressions

The lexemes are read once from left to right with a stack of the groups that are
open. A stray character is an error in strict mode and skipped otherwise. What
follows the end of the outer group is never skipped.
-/

namespace Sift

structure ParseOptions where
  strict : Bool
  maxDepth : Nat
deriving DecidableEq

namespace ParseOptions

def default : ParseOptions := ⟨false, 64⟩

end ParseOptions

namespace Expr

open Sift.Text

/-- A group that is still open: where it was opened, the connector seen in it so
far and its members, the latest first. -/
structure Scope where
  offset : Nat
  connector : Option Connector
  members : List Expr

namespace Scope

def opened (offset : Nat) : Scope := ⟨offset, none, []⟩

def add (s : Scope) (e : Expr) : Scope := { s with members := e :: s.members }

/-- A group without any connector is an AND group. -/
def close (s : Scope) : Expr := .group (s.connector.getD .and) s.members.reverse

/-- Record a connector; two different ones cannot stand in the same group. -/
def connect? (s : Scope) (c : Connector) : Option Scope :=
  if s.connector = none ∨ s.connector = some c then some { s with connector := some c }
  else none

end Scope

def finish (e : Expr) : List Lexeme → Except ParseError Expr
  | [] => .ok e
  | l :: _ => .error (.unexpectedCharacter l.head l.offset)

/-- Read on in the innermost open group `inner`; `outer` are the groups around it,
the innermost first. -/
def assemble (options : ParseOptions) (outer : List Scope) (inner : Scope) :
    List Lexeme → Except ParseError Expr
  | [] => .error (.unclosedGroup inner.offset)
  | l :: ls =>
    match l.token with
    | .opening =>
      if options.maxDepth < outer.length + 2 then .error (.nestingTooDeep options.maxDepth)
      else assemble options (inner :: outer) (.opened l.offset) ls
    | .closing =>
      match outer with
      | [] => finish inner.close ls
      | scope :: scopes => assemble options scopes (scope.add inner.close) ls
    | .connector c =>
      match inner.connect? c with
      | some scope => assemble options outer scope ls
      | none => .error (.mixedLogic l.offset)
    | .comparison c => assemble options outer (inner.add (.comparison c)) ls
    | .stray =>
      if options.strict then .error (.unexpectedCharacter l.head l.offset)
      else assemble options outer inner ls
    | .fault error => .error error

def ofLexemes (options : ParseOptions) : List Lexeme → Except ParseError Expr
  | [] => .error (.unclosedGroup 0)
  | l :: ls =>
    if l.token = .opening then
      if options.maxDepth < 1 then .error (.nestingTooDeep options.maxDepth)
      else assemble options [] (.opened l.offset) ls
    else .error (.unexpectedCharacter l.head l.offset)

def lexemes (expression : String) : List Lexeme :=
  Lexeme.scan (Cursor.start (normalizeChars expression.toList))

def parse (options : ParseOptions) (expression : String) : Except ParseError Expr :=
  ofLexemes options (lexemes expression)

end Expr

end Sift

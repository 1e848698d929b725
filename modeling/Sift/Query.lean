import Sift.Expr

/-!
# SELECT statements

A query selects everything from one table, with joins and conditions. Conditions
form a list in which each carries the connector that stands before it; the
connector of the first is never written. Identifiers and operators go into the
text, and values only into the bindings, one for each `?`.
-/

namespace Sift

inductive JoinKind where
  | inner
  | left
  | right
deriving DecidableEq

namespace JoinKind

def name : JoinKind → String
  | .inner => "inner"
  | .left => "left"
  | .right => "right"

def ofName? (s : String) : Option JoinKind := [inner, left, right].find? (·.name = s)

end JoinKind

/-- A joined table and the comparison of two columns that it is joined on. -/
structure Join where
  table : String
  first : String
  operator : String
  second : String
  kind : JoinKind
deriving DecidableEq

inductive Condition where
  | compare (column operator : String) (value : Literal)
  | isNull (column : String) (negated : Bool)
  | raw (sql : String) (bindings : List Literal)
  | nested (conditions : List (Connector × Condition))

structure WhereGroup where
  conditions : List (Connector × Condition)

namespace WhereGroup

def empty : WhereGroup := ⟨[]⟩

def isEmpty (g : WhereGroup) : Bool := g.conditions.isEmpty

def push (g : WhereGroup) (connector : Connector) (c : Condition) : WhereGroup :=
  ⟨g.conditions ++ [(connector, c)]⟩

/-- Compare a column with a value. Equality and inequality with null ask whether
the column is null. -/
def compare (g : WhereGroup) (connector : Connector) (column operator : String)
    (value : Literal) : WhereGroup :=
  g.push connector <|
    if value.isNull && operator = "=" then .isNull column false
    else if value.isNull && (operator = "!=" || operator = "<>") then .isNull column true
    else .compare column operator value

def raw (g : WhereGroup) (connector : Connector) (sql : String) (bindings : List Literal) :
    WhereGroup :=
  g.push connector (.raw sql bindings)

/-- Add a group in parentheses; a group without conditions is left out. -/
def nested (g : WhereGroup) (connector : Connector) (sub : WhereGroup) : WhereGroup :=
  if sub.isEmpty then g else g.push connector (.nested sub.conditions)

end WhereGroup

structure Query where
  table : String
  joins : List Join
  wheres : WhereGroup

namespace Query

def ofTable (name : String) : Query := ⟨name, [], .empty⟩

def join (q : Query) (j : Join) : Query := { q with joins := q.joins ++ [j] }

end Query

end Sift

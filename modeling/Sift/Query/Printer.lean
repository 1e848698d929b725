import Sift.Query
import Sift.Text.Blank

/-!
# SQL text

Each part of an identifier between points is quoted on its own, with quotes inside
written twice; only a part that is a star alone is left bare. The bindings are
collected in the order of their placeholders.
-/

namespace Sift

open Sift.Text

def quoteSegment (s : List Char) : List Char :=
  if s = ['*'] then s
  else '"' :: s.flatMap (fun c => if c = '"' then ['"', '"'] else [c]) ++ ['"']

def quoteIdentifier (s : List Char) : List Char :=
  ['.'].intercalate ((splitAt '.' s).map quoteSegment)

namespace Join

def sql (j : Join) : List Char :=
  [' '].intercalate
    [j.kind.name.toList, "join".toList, quoteIdentifier j.table.toList, "on".toList,
      quoteIdentifier j.first.toList, j.operator.toList, quoteIdentifier j.second.toList]

end Join

namespace Condition

mutual

def sql : Condition → List Char
  | .compare column operator _ =>
    quoteIdentifier column.toList ++ ' ' :: operator.toList ++ [' ', '?']
  | .isNull column negated =>
    quoteIdentifier column.toList ++ (if negated then " is not null" else " is null").toList
  | .raw text _ => text.toList
  | .nested conditions => '(' :: sqlAll conditions ++ [')']

/-- The conditions of one group; the connector of the first is not written. -/
def sqlAll : List (Connector × Condition) → List Char
  | [] => []
  | (_, c) :: cs => sql c ++ sqlRest cs

def sqlRest : List (Connector × Condition) → List Char
  | [] => []
  | (connector, c) :: cs => ' ' :: connector.name.toList ++ ' ' :: sql c ++ sqlRest cs

end

mutual

def bindings : Condition → List Literal
  | .compare _ _ value => [value]
  | .isNull _ _ => []
  | .raw _ values => values
  | .nested conditions => bindingsAll conditions

def bindingsAll : List (Connector × Condition) → List Literal
  | [] => []
  | (_, c) :: cs => bindings c ++ bindingsAll cs

end

end Condition

namespace Query

def sqlChars (q : Query) : List Char :=
  "select * from ".toList ++ quoteIdentifier q.table.toList ++
    q.joins.flatMap (fun j => ' ' :: j.sql) ++
    if q.wheres.isEmpty then []
    else " where ".toList ++ Condition.sqlAll q.wheres.conditions

def sql (q : Query) : String := String.ofList q.sqlChars

def bindings (q : Query) : List Literal := Condition.bindingsAll q.wheres.conditions

end Query

end Sift

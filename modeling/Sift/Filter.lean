import Sift.Error
import Sift.Expr.Parser

/-!
# Applying an expression to a query

A filter is an expression with the fields and operators that it may use. It is
compiled as a whole before the query is touched: every comparison is resolved in
the order in which it is written, so the first comparison that fails decides the
error. The compiled conditions go into the query as one group, after the joins of
the fields that were used.
-/

namespace Sift

open Sift.Text

structure Filter where
  expression : String
  fields : FieldRegistry
  operators : OperatorRegistry
  options : ParseOptions
  now : Time.Instant

structure Resolved where
  field : Field
  operator : Operator
  value : Literal

/-- The conditions of a group and the fields with joins that it uses, each listed
once in the order of first use. -/
structure Emission where
  conditions : WhereGroup
  joined : List Field

namespace Filter

/-- Look up the field, check the value, look up the operator, and ask whether the
field permits it; the first of these to fail is the error. -/
def resolve (f : Filter) (c : Comparison) : Except Error Resolved :=
  match f.fields.get? c.field with
  | none => .error (.registry (.unknownField c.field))
  | some field =>
    match field.constraint.validate field.name f.now c.value with
    | .error e => .error (.validation e)
    | .ok value =>
      match f.operators.get? c.operator with
      | none => .error (.registry (.unknownOperator c.operator))
      | some operator =>
        if field.permits c.operator then .ok ⟨field, operator, value⟩
        else .error (.registry (.operatorNotPermitted c.operator field.name))

def condition (r : Resolved) (connector : Connector) (g : WhereGroup) : WhereGroup :=
  match r.operator with
  | .fixed sql => g.compare connector r.field.columnName sql r.value
  | .custom handler => handler g connector r.value

/-- Record that a field is used, if it has a join and is not recorded yet. -/
def recordJoin (field : Field) (joined : List Field) : List Field :=
  if field.join.isSome && !joined.any (·.name = field.name) then joined ++ [field] else joined

mutual

def emit (f : Filter) (connector : Connector) (out : Emission) : Expr → Except Error Emission
  | .comparison c =>
    match f.resolve c with
    | .error e => .error e
    | .ok r => .ok ⟨condition r connector out.conditions, recordJoin r.field out.joined⟩
  | .group inner members =>
    match emitAll f inner ⟨.empty, out.joined⟩ members with
    | .error e => .error e
    | .ok sub => .ok ⟨out.conditions.nested connector sub.conditions, sub.joined⟩

def emitAll (f : Filter) (connector : Connector) (out : Emission) :
    List Expr → Except Error Emission
  | [] => .ok out
  | e :: es =>
    match emit f connector out e with
    | .error err => .error err
    | .ok next => emitAll f connector next es

end

def parse (f : Filter) : Except Error (Option Expr) :=
  if trim f.expression.toList = [] then .ok none
  else
    match Expr.parse f.options f.expression with
    | .error e => .error (.parse e)
    | .ok e => .ok (some e)

/-- What an expression adds to a query: a group gives its members. -/
def emission (f : Filter) : Expr → Except Error Emission
  | .group connector members => f.emitAll connector ⟨.empty, []⟩ members
  | e => f.emit .and ⟨.empty, []⟩ e

/-- The expression together with what it adds to a query, or nothing for a blank
expression. -/
def compile (f : Filter) : Except Error (Option (Expr × Emission)) :=
  match f.parse with
  | .error e => .error e
  | .ok none => .ok none
  | .ok (some e) =>
    match f.emission e with
    | .error err => .error err
    | .ok out => .ok (some (e, out))

/-- The joins of the fields in their order, then the conditions as one group. -/
def Emission.addTo (out : Emission) (q : Query) : Query :=
  let joined := out.joined.foldl (fun q field =>
    match field.join with
    | some join => join.apply q
    | none => q) q
  { joined with wheres := joined.wheres.nested .and out.conditions }

def apply (f : Filter) (q : Query) : Except Error Query :=
  match f.compile with
  | .error e => .error e
  | .ok none => .ok q
  | .ok (some (_, out)) => .ok (Emission.addTo out q)

def check (f : Filter) : Except Error Nat :=
  match f.compile with
  | .error e => .error e
  | .ok none => .ok 0
  | .ok (some (e, _)) => .ok e.leaves.length

end Filter

end Sift

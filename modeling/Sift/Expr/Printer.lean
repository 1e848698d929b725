import Sift.Expr

/-!
# Printing expressions

Three notations: the expression itself with every group in parentheses, JSON with
a group as an object of one member and a comparison as an array of three, and an
outline with one line a node.
-/

namespace Sift

def Comparison.notated (c : Comparison) : List Char :=
  c.field.toList ++ c.operator.toList ++ c.value.notated.toList

def Comparison.toJson (c : Comparison) : Json :=
  .array [.string c.field, .string c.operator, c.value.toJson]

namespace Expr

mutual

def notated : Expr → List Char
  | .comparison c => c.notated
  | .group connector members => '(' :: notatedAll connector members ++ [')']

def notatedAll (connector : Connector) : List Expr → List Char
  | [] => []
  | [e] => notated e
  | e :: es => notated e ++ connector.glyph :: notatedAll connector es

end

mutual

def toJson : Expr → Json
  | .comparison c => c.toJson
  | .group connector members => .object [(connector.name, .array (toJsonAll members))]

def toJsonAll : List Expr → List Json
  | [] => []
  | e :: es => toJson e :: toJsonAll es

end

def outlineLine (level : Nat) (words : List (List Char)) : List Char :=
  List.replicate (2 * level) ' ' ++ [' '].intercalate words ++ ['\n']

mutual

/-- A group is its connector and below it the members one level deeper. -/
def outline (level : Nat) : Expr → List Char
  | .comparison c =>
    outlineLine level [c.field.toList, c.operator.toList, c.value.toJson.compact]
  | .group connector members =>
    outlineLine level [connector.name.toList] ++ outlineAll (level + 1) members

def outlineAll (level : Nat) : List Expr → List Char
  | [] => []
  | e :: es => outline level e ++ outlineAll level es

end

def text (e : Expr) : String := String.ofList e.notated

end Expr

end Sift

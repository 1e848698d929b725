/-!
# Why an expression is refused

Positions count the bytes of the normalized expression before the place that is
reported. Only the nesting limit is not tied to a place.
-/

namespace Sift

inductive ParseError where
  | unclosedGroup (position : Nat)
  | unterminatedString (position : Nat)
  | mixedLogic (position : Nat)
  | missingValue (field : String) (position : Nat)
  | unexpectedCharacter (character : Char) (position : Nat)
  | nestingTooDeep (limit : Nat)
deriving DecidableEq

namespace ParseError

def message : ParseError → String
  | .unclosedGroup p => "Closing ) not found for group opened at position " ++ toString p
  | .unterminatedString p =>
    "Closing quote (') not found for string starting at position " ++ toString p
  | .mixedLogic p =>
    "AND and OR cannot be combined together at position " ++ toString p ++
      ". Use parentheses to separate them"
  | .missingValue field p =>
    "Missing or malformed value for '" ++ field ++ "' at position " ++ toString p
  | .unexpectedCharacter c p =>
    "Unexpected character '" ++ c.toString ++ "' at position " ++ toString p
  | .nestingTooDeep limit => "Groups nested deeper than " ++ toString limit ++ " levels"

def position? : ParseError → Option Nat
  | .unclosedGroup p => some p
  | .unterminatedString p => some p
  | .mixedLogic p => some p
  | .missingValue _ p => some p
  | .unexpectedCharacter _ p => some p
  | .nestingTooDeep _ => none

end ParseError

end Sift

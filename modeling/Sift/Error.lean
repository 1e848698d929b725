import Sift.Expr.ParseError
import Sift.Registry

/-!
# Reasons for refusing a filter or a configuration

A filter is applied as a whole or refused with one of these reasons.
-/

namespace Sift

inductive Error where
  | parse (e : ParseError)
  | validation (e : ValidationError)
  | registry (e : RegistryError)
  | malformedConfig
  | maxDepthTooSmall (given : Nat)
  | unsupportedValue (field value : String)
  | configNotFound (path : String)
deriving DecidableEq

def Error.message : Error → String
  | .parse e => "Parse error: " ++ e.message
  | .validation e => "Invalid value: " ++ e.message
  | .registry e => e.message
  | .malformedConfig => "Configuration error: Failed to parse config"
  | .maxDepthTooSmall given =>
    "Configuration error: max_depth must be at least 1, got " ++ toString given
  | .unsupportedValue field value =>
    "Configuration error: Unsupported value for field '" ++ field ++ "': " ++ value
  | .configNotFound path => "Configuration file not found: " ++ path

end Sift

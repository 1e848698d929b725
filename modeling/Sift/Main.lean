import Std.Time.DateTime.Timestamp
import Sift.CommandLine.Arguments
import Sift.CommandLine.Outcome

/-!
# The program

Arguments, environment, clock and files are read here, and what the outcome says is
printed.
-/

namespace Sift

def readContents (path : String) : IO (Option String) := do
  try
    return some (← IO.FS.readFile path)
  catch
    | .noFileOrDirectory .. => return none
    | e => throw e

def configSource (argument : Option String) : IO Config.Source := do
  let environment ← IO.getEnv "FILTERQ_CONFIG"
  let directory := Config.directory (← IO.getEnv "XDG_CONFIG_HOME") (← IO.getEnv "HOME")
  return .find argument environment directory

def loadConfig (request : Request) : IO (Except Error Config) := do
  let source ← configSource request.configFile?
  match request, source.path? with
  | .run .., some path => do
    let contents ← readContents path
    return source.load fun _ => contents
  | _, _ => return .ok .empty

def currentInstant : IO Time.Instant := do
  let timestamp ← Std.Time.Timestamp.now
  match Time.Instant.ofUnixNanos? timestamp.toNanosecondsSinceUnixEpoch.val with
  | some now => return now
  | none => throw (.userError "the clock is set outside the calendar")

def respond (arguments : List String) : IO UInt32 := do
  let request := Request.ofArguments arguments
  let outcome := request.outcome (← loadConfig request) (← currentInstant)
  IO.print outcome.output
  IO.eprint outcome.errors
  return outcome.exitCode.toUInt32

end Sift

def main (arguments : List String) : IO UInt32 := Sift.respond arguments

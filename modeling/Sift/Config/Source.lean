import Sift.Config.Reader

/-!
# Where a configuration comes from

A file that was asked for by name has to be there. Otherwise a file in the usual
place is read if there is one, and without it the configuration is empty.
-/

namespace Sift.Config

inductive Source where
  | named (path : String)
  | usual (path : Option String)
deriving DecidableEq

/-- The directory for configurations: one that is set, if its path is absolute, or
else the usual one below the home directory. -/
def directory (set home : Option String) : Option String :=
  match set.filter (·.toList.head? = some '/') with
  | some path => some path
  | none => home.map (· ++ "/.config")

namespace Source

/-- The path of the environment takes the place of the configuration directory. -/
def find (argument environment directory : Option String) : Source :=
  match argument, environment with
  | some path, _ => .named path
  | none, some path => .usual (some path)
  | none, none => .usual (directory.map (· ++ "/filterq/filterq.toml"))

def path? : Source → Option String
  | .named path => some path
  | .usual path => path

def load (contents : String → Option String) : Source → Except Error Config
  | .named path =>
    match contents path with
    | some text => read text
    | none => .error (.configNotFound path)
  | .usual path =>
    match path.bind contents with
    | some text => read text
    | none => .ok empty

end Source

end Sift.Config

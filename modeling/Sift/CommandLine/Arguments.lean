import Sift.CommandLine

/-!
# Reading arguments

Arguments become items: switches, settings with their values, texts that stand
alone, and the name of a command with all that follows it. Items are then taken
one after another. The first one that is out of place makes the whole line a
misuse, unless help or the version is asked for before it.
-/

namespace Sift

inductive CommandName where
  | parse
  | check
  | sql
  | fields
deriving DecidableEq

def CommandName.ofText? : String → Option CommandName
  | "parse" => some parse
  | "p" => some parse
  | "check" => some check
  | "sql" => some sql
  | "fields" => some fields
  | _ => none

inductive Switch where
  | verbose
  | help
  | version
  | strict
  | text
deriving DecidableEq

inductive Setting where
  | config
  | format
  | table
deriving DecidableEq

inductive Flag where
  | switch (s : Switch)
  | setting (s : Setting)
deriving DecidableEq

namespace Flag

def short : Flag → Option Char
  | switch .verbose => some 'v'
  | switch .help => some 'h'
  | switch .version => some 'V'
  | switch .strict => some 's'
  | switch .text => none
  | setting .config => some 'c'
  | setting .format => some 'f'
  | setting .table => some 't'

def long : Flag → String
  | switch .verbose => "verbose"
  | switch .help => "help"
  | switch .version => "version"
  | switch .strict => "strict"
  | switch .text => "text"
  | setting .config => "config"
  | setting .format => "format"
  | setting .table => "table"

end Flag

/-- The part of a line before the name of a command, or the part after it. -/
abbrev Level := Option CommandName

namespace Level

def flags : Level → List Flag
  | none => [.setting .config, .switch .verbose, .switch .help, .switch .version]
  | some .parse =>
    [.setting .config, .switch .verbose, .switch .help, .setting .format, .switch .strict]
  | some .sql =>
    [.setting .config, .switch .verbose, .switch .help, .setting .table, .switch .text]
  | some _ => [.setting .config, .switch .verbose, .switch .help]

def takesExpression : Level → Bool
  | none => false
  | some .fields => false
  | some _ => true

end Level

inductive Item where
  | switch (s : Switch)
  | setting (s : Setting) (value : String)
  | expression (text : String)
  | command (name : CommandName) (arguments : List String)
  | fault
deriving DecidableEq

namespace Item

def alone (level : Level) (text : String) : Item :=
  if level.takesExpression then .expression text else .fault

def ofLong (level : Level) (s : List Char) : List Item × Option Setting :=
  let name := String.ofList (s.takeWhile (· ≠ '='))
  match level.flags.find? (·.long = name), s.dropWhile (· ≠ '=') with
  | some (.setting w), [] => ([], some w)
  | some (.setting w), _ :: value => ([.setting w (String.ofList value)], none)
  | some (.switch w), [] => ([.switch w], none)
  | _, _ => ([.fault], none)

/-- Short flags in one argument. What follows a setting is its value, with or without
an equals sign in front. -/
def ofShort (level : Level) : List Char → List Item × Option Setting
  | [] => ([], none)
  | c :: s =>
    match level.flags.find? (·.short = some c) with
    | none => ([.fault], none)
    | some (.switch w) =>
      let (items, pending) := ofShort level s
      (.switch w :: items, pending)
    | some (.setting w) =>
      match s with
      | [] => ([], some w)
      | '=' :: value => ([.setting w (String.ofList value)], none)
      | value => ([.setting w (String.ofList value)], none)

def isHelp : List String → Bool
  | ["help"] => true
  | ["help", name] => name = "help" || (CommandName.ofText? name).isSome
  | _ => false

/-- At the end, or before another flag, a setting is left without its value. -/
def scan (level : Level) : Option Setting → List String → List Item
  | none, [] => []
  | some _, [] => [.fault]
  | pending, argument :: arguments =>
    match pending, argument.toList with
    | none, ['-', '-'] => arguments.map (alone level)
    | none, '-' :: '-' :: s =>
      let (items, pending) := ofLong level s
      items ++ scan level pending arguments
    | none, '-' :: c :: s =>
      let (items, pending) := ofShort level (c :: s)
      items ++ scan level pending arguments
    | none, _ =>
      match level, CommandName.ofText? argument with
      | none, some name => [.command name arguments]
      | none, none => [if isHelp (argument :: arguments) then .switch .help else .fault]
      | some _, _ => alone level argument :: scan level none arguments
    | some _, '-' :: _ :: _ => [.fault]
    | some w, _ => .setting w argument :: scan level none arguments

end Item

structure Given where
  config : Option String
  format : Option TreeFormat
  table : Option String
  strict : Bool
  text : Bool
  expression : Option String

namespace Given

def nothing : Given := ⟨none, none, none, false, false, none⟩

/-- Add an item. Nothing but `verbose` may come twice. -/
def add? (g : Given) : Item → Option Given
  | .switch .verbose => some g
  | .switch .strict => if g.strict then none else some { g with strict := true }
  | .switch .text => if g.text then none else some { g with text := true }
  | .setting .config value =>
    if g.config.isSome || value = "" then none else some { g with config := some value }
  | .setting .format value =>
    match g.format, TreeFormat.ofName? value with
    | none, some format => some { g with format := some format }
    | _, _ => none
  | .setting .table value =>
    if g.table.isSome then none else some { g with table := some value }
  | .expression text =>
    if g.expression.isSome then none else some { g with expression := some text }
  | _ => none

def command? (g : Given) : CommandName → Option Command
  | .parse => g.expression.map fun e => .parse e (g.format.getD .json) g.strict
  | .check => g.expression.map .check
  | .sql => do return .sql (← g.expression) (← g.table) g.text
  | .fields => some .fields

end Given

namespace Request

/-- Take items after the name of a command. The file named there counts more than
the one named before. -/
def ofCommandItems (name : CommandName) (config : Option String) (g : Given) :
    List Item → Request
  | [] =>
    match g.command? name with
    | some command => .run (g.config.or config) command
    | none => .misuse
  | .switch .help :: _ => .help
  | item :: items =>
    match g.add? item with
    | some next => ofCommandItems name config next items
    | none => .misuse

def ofItems (g : Given) : List Item → Request
  | [] => .misuse
  | .switch .help :: _ => .help
  | .switch .version :: _ => .version
  | .command name arguments :: _ =>
    ofCommandItems name g.config .nothing (Item.scan (some name) none arguments)
  | item :: items =>
    match g.add? item with
    | some next => ofItems next items
    | none => .misuse

def ofArguments (arguments : List String) : Request :=
  ofItems .nothing (Item.scan none none arguments)

end Request

end Sift

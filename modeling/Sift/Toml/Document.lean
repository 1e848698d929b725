import Sift.Toml

/-!
# Tables under construction

Entries and headers are taken one after another, and each may add to tables that
are there already. What may be added to depends on how a table came about: by a
header or an inline table, by being part of a longer header, or by a dotted key.
Nothing is ever defined twice.
-/

namespace Sift.Toml

/-- How a table came about: part of a longer header, a dotted key, or a header or
an inline table of its own. -/
inductive Origin where
  | implied
  | dotted
  | declared
deriving DecidableEq

/-- What a key stands for while a document is read. The elements of an array of
tables are kept with the latest first. -/
inductive Item where
  | value (v : Value)
  | table (origin : Origin) (entries : List (String × Item))
  | tables (latest : List (String × Item)) (earlier : List (List (String × Item)))

structure Table where
  origin : Origin
  entries : List (String × Item)

namespace Table

def empty (origin : Origin) : Table := ⟨origin, []⟩

def get? (t : Table) (key : String) : Option Item := t.entries.lookup key

def insert (t : Table) (key : String) (item : Item) : Table :=
  { t with entries := insertEntry key item t.entries }

/-- Change the table at the end of a path. Tables that are missing on the way are
made, and an array of tables leads to its latest element. Along a dotted key no
table with a header of its own may lie. -/
def update (dotted : Bool) (f : Table → Option Table) : List String → Table → Option Table
  | [], t => f t
  | key :: path, t =>
    match t.get? key with
    | none =>
      (update dotted f path (empty (if dotted then .dotted else .implied))).map fun sub =>
        t.insert key (.table sub.origin sub.entries)
    | some (.value _) => none
    | some (.tables latest earlier) =>
      (update dotted f path ⟨.declared, latest⟩).map fun sub =>
        t.insert key (.tables sub.entries earlier)
    | some (.table origin entries) =>
      if dotted && origin = .declared then none
      else
        (update dotted f path ⟨origin, entries⟩).map fun sub =>
          t.insert key (.table sub.origin sub.entries)

/-- Give a new key a value. A dotted key ends in a table made by dotted keys, and
a plain key never does. -/
def assign (path : List String) (v : Value) (t : Table) : Option Table :=
  match path.getLast? with
  | none => none
  | some key =>
    t.update true (fun sub =>
      if decide (sub.origin = .dotted) = path.dropLast.isEmpty then none
      else if (sub.get? key).isSome then none
      else some (sub.insert key (.value v))) path.dropLast

/-- Open a table by its header. Only a table that headers have implied may be
there already, and it keeps what it has. -/
def declare (path : List String) (t : Table) : Option Table :=
  match path.getLast? with
  | none => none
  | some key =>
    t.update false (fun sub =>
      match sub.get? key with
      | none => some (sub.insert key (.table .declared []))
      | some (.table .implied entries) => some (sub.insert key (.table .declared entries))
      | some _ => none) path.dropLast

/-- Open the next element of an array of tables. -/
def declareElement (path : List String) (t : Table) : Option Table :=
  match path.getLast? with
  | none => none
  | some key =>
    t.update false (fun sub =>
      match sub.get? key with
      | none => some (sub.insert key (.tables [] []))
      | some (.tables latest earlier) => some (sub.insert key (.tables [] (latest :: earlier)))
      | some _ => none) path.dropLast

end Table

namespace Item

mutual

def toValue : Item → Value
  | .value v => v
  | .table _ entries => .table (entriesToValue entries)
  | .tables latest earlier => .array (elementsToValue earlier [.table (entriesToValue latest)])

def entriesToValue : List (String × Item) → List (String × Value)
  | [] => []
  | (key, item) :: entries => (key, toValue item) :: entriesToValue entries

def elementsToValue : List (List (String × Item)) → List Value → List Value
  | [], done => done
  | entries :: earlier, done => elementsToValue earlier (.table (entriesToValue entries) :: done)

end

end Item

def Table.toValue (t : Table) : Value := .table (Item.entriesToValue t.entries)

inductive Statement where
  | entry (path : List String) (v : Value)
  | header (path : List String)
  | elementHeader (path : List String)

structure Section where
  root : Table
  path : List String

namespace Section

def start : Section := ⟨.empty .declared, []⟩

def run (s : Section) : Statement → Option Section
  | .entry path v =>
    (s.root.update false (·.assign path v) s.path).map fun root => { s with root }
  | .header path => (s.root.declare path).map fun root => ⟨root, path⟩
  | .elementHeader path => (s.root.declareElement path).map fun root => ⟨root, path⟩

end Section

def tableOfStatements (statements : List Statement) : Option Value :=
  (statements.foldlM Section.run Section.start).map fun s => s.root.toValue

def tableOfPairs (pairs : List (List String × Value)) : Option Value :=
  tableOfStatements (pairs.map fun (path, v) => .entry path v)

end Sift.Toml

import EntityAudit.Toml.Value

/-! # TOML documents

Each header opens a table, each assignment adds a value to the table opened last. No value is ever
replaced, and only some tables may still be added to once they exist.
-/

namespace EntityAudit.Toml

inductive Line where
  | header (path : List String)
  /-- The header of one more table of a list. -/
  | item (path : List String)
  | assign (path : List String) (value : Toml)

/-- Change the table at the end of a header's path. Tables on the way may be of any origin but
    inline, missing ones are implied, and in a list of tables the last one counts. -/
def atHeader (change : Dict Toml → Option (Dict Toml)) :
    List String → Dict Toml → Option (Dict Toml)
  | [], entries => change entries
  | key :: path, entries =>
    match entries.get? key with
    | none => (atHeader change path []).map fun inner => entries.put key (.table .implied inner)
    | some (.table origin inner) =>
      if origin = .inline then none
      else (atHeader change path inner).map fun inner => entries.put key (.table origin inner)
    | some (.tables items) => do
      let inner ← atHeader change path (← items.getLast?)
      return entries.put key (.tables (items.dropLast ++ [inner]))
    | some _ => none

/-- Add a value under a dotted key. Tables before a dot are made by such keys only. -/
def assign (value : Toml) : List String → Dict Toml → Option (Dict Toml)
  | [], _ => none
  | [key], entries => if entries.has key then none else some (entries.put key value)
  | key :: path, entries =>
    match entries.get? key with
    | none => (assign value path []).map fun inner => entries.put key (.table .dotted inner)
    | some (.table .dotted inner) =>
      (assign value path inner).map fun inner => entries.put key (.table .dotted inner)
    | some _ => none

/-- Open a table: a new one, or one that was only implied. -/
def openTable (key : String) (entries : Dict Toml) : Option (Dict Toml) :=
  match entries.get? key with
  | none => some (entries.put key (.table .header []))
  | some (.table .implied inner) => some (entries.put key (.table .header inner))
  | some _ => none

def openItem (key : String) (entries : Dict Toml) : Option (Dict Toml) :=
  match entries.get? key with
  | none => some (entries.put key (.tables [[]]))
  | some (.tables items) => some (entries.put key (.tables (items ++ [[]])))
  | some _ => none

structure Draft where
  entries : Dict Toml := []
  /-- The path of the table opened last. -/
  current : List String := []

namespace Draft

def opened (draft : Draft) (path : List String) (change : String → Dict Toml → Option (Dict Toml)) :
    Option Draft := do
  let key ← path.getLast?
  let entries ← atHeader (change key) path.dropLast draft.entries
  return { entries, current := path }

def add (draft : Draft) : Line → Option Draft
  | .header path => draft.opened path openTable
  | .item path => draft.opened path openItem
  | .assign path value => do
    return { draft with entries := ← atHeader (assign value path) draft.current draft.entries }

end Draft

/-- The table that the lines of a document make up; none if they contradict each other. -/
def ofLines? (lines : List Line) : Option (Dict Toml) :=
  (lines.foldlM Draft.add {}).map (·.entries)

end EntityAudit.Toml

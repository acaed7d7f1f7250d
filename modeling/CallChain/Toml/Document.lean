import CallChain.Toml.Value

/-!
The tables of a TOML document while it is read. How a table came about decides who may add to it: a table
with a header of its own is closed to dotted keys from outside and to a second header, one that was only
passed through by a header may still get its own, and one made by dotted keys grows by dotted keys alone.
-/
namespace CallChain.Toml

inductive Origin where
  /-- Made by a header of its own. -/
  | header
  /-- Made on the way to the table of a header. -/
  | implied
  /-- Made by dotted keys. -/
  | dotted
  deriving DecidableEq

inductive Item where
  | value (v : Value)
  | table (origin : Origin) (entries : List (String × Item))
  /-- The tables under one repeated header, in order. -/
  | tables (elements : List (List (String × Item)))

abbrev Entries := List (String × Item)

namespace Entries

/-- Puts an item in the place of the one under the same key. -/
def replace (key : String) (item : Item) (entries : Entries) : Entries :=
  entries.map fun (k, i) => if k = key then (k, item) else (k, i)

end Entries

/-- Applies `f` to the table that a path leads to. Tables that are missing on the way are made; of repeated
tables the last is taken. -/
def alter (f : Origin → Entries → Option Entries) (made : Origin) :
    List String → Origin → Entries → Option Entries
  | [], origin, entries => f origin entries
  | key :: path, _, entries =>
    match entries.lookup key with
    | none => do
      let inner ← alter f made path made []
      return entries ++ [(key, .table made inner)]
    | some (.value _) => none
    | some (.tables elements) => do
      let inner ← alter f made path .header (elements.getLast?.getD [])
      return Entries.replace key (.tables (elements.dropLast ++ [inner])) entries
    | some (.table origin inner) => do
      guard !(made = .dotted && origin = .header)
      let inner ← alter f made path origin inner
      return Entries.replace key (.table origin inner) entries

/-- Adds a value under a dotted key. -/
def insertKey (path : List String) (key : String) (v : Value) : Entries → Option Entries :=
  alter (fun origin entries => do
    guard (decide (origin = .dotted) == !path.isEmpty)
    guard (entries.lookup key).isNone
    return entries ++ [(key, .value v)]) .dotted path .header

/-- Opens the table of a header. -/
def openTable (path : List String) (key : String) : Entries → Option Entries :=
  alter (fun _ entries =>
    match entries.lookup key with
    | none => some (entries ++ [(key, .table .header [])])
    | some (.table .implied inner) => some (Entries.replace key (.table .header inner) entries)
    | some _ => none) .implied path .header

/-- Opens the next table of a repeated header. -/
def openElement (path : List String) (key : String) : Entries → Option Entries :=
  alter (fun _ entries =>
    match entries.lookup key with
    | none => some (entries ++ [(key, .tables [[]])])
    | some (.tables elements) => some (Entries.replace key (.tables (elements ++ [[]])) entries)
    | some _ => none) .implied path .header

mutual

/-- The value that an item stands for when the document is complete. -/
def Item.close : Item → Value
  | .value v => v
  | .table _ entries => .table (closeEntries entries)
  | .tables elements => .array (closeElements elements)

def closeEntries : List (String × Item) → List (String × Value)
  | [] => []
  | (key, item) :: entries => (key, item.close) :: closeEntries entries

def closeElements : List (List (String × Item)) → List Value
  | [] => []
  | entries :: elements => .table (closeEntries entries) :: closeElements elements

end

/-- A document that is being read: its tables, and the path of the one that the last header opened. -/
structure Document where
  entries : Entries := []
  current : List String := []

namespace Document

/-- Adds a value to the current table. -/
def insert (d : Document) (path : List String) (key : String) (v : Value) : Option Document := do
  let entries ← alter (fun _ entries => insertKey path key v entries) .implied d.current .header d.entries
  return { d with entries }

def openTable (d : Document) (path : List String) (key : String) : Option Document := do
  return { entries := ← Toml.openTable path key d.entries, current := path ++ [key] }

def openElement (d : Document) (path : List String) (key : String) : Option Document := do
  return { entries := ← Toml.openElement path key d.entries, current := path ++ [key] }

end Document

end CallChain.Toml

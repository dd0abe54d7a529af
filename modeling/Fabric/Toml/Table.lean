import Fabric.Json.Basic

/-!
The tables of a configuration document and how its lines build them. A table may be opened by one
header only; a table that dotted keys made belongs to the table they stand in; a table that exists
only because a header named something below it may still be opened once.
-/

namespace Fabric.Toml

inductive Origin
  | header
  | implied
  | dotted
deriving DecidableEq, Repr

/-- What a key stands for: a written value, a table, or a list of tables. -/
inductive Item
  | value (content : Json)
  | table (origin : Origin) (entries : List (String × Item))
  | tables (items : List (List (String × Item)))

abbrev Entries := List (String × Item)

/-- Gives a key another item, in its place or at the end. -/
def Entries.set (entries : Entries) (key : String) (item : Item) : Entries :=
  match entries with
  | [] => [(key, item)]
  | (k, i) :: rest => if k = key then (key, item) :: rest else (k, i) :: Entries.set rest key item

/-- Changes the table at the end of a path that headers follow. Tables on the way are implied if
they are missing, and of a list of tables the last one is meant. -/
def Entries.descend (change : Entries → Option Entries) : List String → Entries → Option Entries
  | [], entries => change entries
  | key :: path, entries =>
    match entries.lookup key with
    | none => (Entries.descend change path []).map fun t => entries.set key (.table .implied t)
    | some (.table origin t) =>
      (Entries.descend change path t).map fun t => entries.set key (.table origin t)
    | some (.tables items) =>
      match items.getLast? with
      | none => none
      | some last =>
        (Entries.descend change path last).map fun t =>
          entries.set key (.tables (items.dropLast ++ [t]))
    | some (.value _) => none

def Entries.openTable (entries : Entries) (path : List String) (key : String) : Option Entries :=
  Entries.descend
    (fun t =>
      match t.lookup key with
      | none => some (t.set key (.table .header []))
      | some (.table .implied inner) => some (t.set key (.table .header inner))
      | some _ => none)
    path entries

def Entries.openItem (entries : Entries) (path : List String) (key : String) : Option Entries :=
  Entries.descend
    (fun t =>
      match t.lookup key with
      | none => some (t.set key (.tables [[]]))
      | some (.tables items) => some (t.set key (.tables (items ++ [[]])))
      | some _ => none)
    path entries

/-- Adds a value under a dotted key. No header opened a table on the way, and the table that gets
the value is new or was made by dotted keys; of a list of tables on the way the last one is meant. -/
def Entries.insert (content : Json) (key : String) : List String → Entries → Option Entries
  | [], entries =>
    match entries.lookup key with
    | none => some (entries.set key (.value content))
    | some _ => none
  | first :: path, entries =>
    match entries.lookup first with
    | none =>
      (Entries.insert content key path []).map fun t => entries.set first (.table .dotted t)
    | some (.table origin t) =>
      if origin = .dotted ∨ (origin = .implied ∧ ¬ path.isEmpty) then
        (Entries.insert content key path t).map fun t => entries.set first (.table origin t)
      else none
    | some (.tables items) =>
      match path, items.getLast? with
      | _ :: _, some last =>
        (Entries.insert content key path last).map fun t =>
          entries.set first (.tables (items.dropLast ++ [t]))
      | _, _ => none
    | some (.value _) => none

mutual

def Item.toJson : Item → Json
  | .value content => content
  | .table _ entries => .obj (entriesToJson entries)
  | .tables items => .arr (tablesToJson items)

def entriesToJson : List (String × Item) → List (String × Json)
  | [] => []
  | (key, item) :: rest => (key, item.toJson) :: entriesToJson rest

def tablesToJson : List (List (String × Item)) → List Json
  | [] => []
  | entries :: rest => .obj (entriesToJson entries) :: tablesToJson rest

end

end Fabric.Toml

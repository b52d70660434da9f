/-!
# Tables

A configuration is a table of nodes, built entry by entry. How a table came to be decides what may
still be added to it: one that was opened under its own header or written as a value is not opened
again, one that only stands on the way to another may be.
-/

namespace Coherence.Toml

/-- How a table came to be. -/
inductive Origin
  /-- It was opened under a header of its own. -/
  | header
  /-- It stands on the way in the header of another table. -/
  | onPath
  /-- It stands on the way in the dotted key of an entry. -/
  | dotted
deriving DecidableEq

/-- A value or table. -/
inductive Node
  | string (value : String)
  /-- A number, a truth value or a date. -/
  | scalar
  | array (items : List Node)
  /-- A table written as a value. -/
  | inlineTable (entries : List (String × Node))
  | table (origin : Origin) (entries : List (String × Node))
  /-- The tables opened one after another under one header in double brackets. -/
  | tables (items : List (List (String × Node)))

/-- The entries of a table. -/
abbrev Entries := List (String × Node)

namespace Entries

/-- Replaces the node of a key. -/
def set (key : String) (node : Node) : Entries → Entries
  | [] => [(key, node)]
  | (k, n) :: rest => if k = key then (k, node) :: rest else (k, n) :: set key node rest

/-- Changes the table at the end of a path. Tables missing on the way are made, with `origin`. The
key of an entry leads only through tables that have no header of their own. -/
def descend (origin : Origin) (change : Origin → Entries → Option Entries) :
    List String → Origin → Entries → Option Entries
  | [], here, entries => change here entries
  | key :: path, _, entries =>
    match entries.lookup key with
    | none => (descend origin change path origin []).map fun es => set key (.table origin es) entries
    | some (.table o es) =>
      if origin = .dotted ∧ o = .header then none
      else (descend origin change path o es).map fun es => set key (.table o es) entries
    | some (.tables items) =>
      match items.getLast? with
      | none => none
      | some es =>
        (descend origin change path .header es).map fun es =>
          set key (.tables (items.dropLast ++ [es])) entries
    | some _ => none

/-- Adds an entry under a dotted key. A table that was opened otherwise than by dotted keys takes no
entries from them. -/
def addEntry (path : List String) (key : String) (node : Node) (entries : Entries) :
    Option Entries :=
  descend .dotted (fun here es =>
    if (here = .dotted ↔ path = []) then none
    else match es.lookup key with
      | some _ => none
      | none => some (set key node es)) path .header entries

/-- Opens a table under a header. -/
def openTable (path : List String) (key : String) (entries : Entries) : Option Entries :=
  descend .onPath (fun _ es =>
    match es.lookup key with
    | none => some (set key (.table .header []) es)
    | some (.table .onPath inner) => some (set key (.table .header inner) es)
    | some _ => none) path .header entries

/-- Opens one more table under a header in double brackets. -/
def openItem (path : List String) (key : String) (entries : Entries) : Option Entries :=
  descend .onPath (fun _ es =>
    match es.lookup key with
    | none => some (set key (.tables [[]]) es)
    | some (.tables items) => some (set key (.tables (items ++ [[]])) es)
    | some _ => none) path .header entries

/-- Adds an entry to the table that was opened last. -/
def addUnder (opened : List String) (path : List String) (key : String) (node : Node)
    (entries : Entries) : Option Entries :=
  descend .onPath (fun _ es => addEntry path key node es) opened .header entries

end Entries

end Coherence.Toml

import Countermand.Toml.Basic

/-! Building tables from keys. A table remembers how it came to be, because only some tables may
be extended later: a header closes a table to other headers and to dotted keys. -/
namespace Countermand.Toml

/-- How a table came to be: by its own header, on the way to another header, or by a dotted key. -/
inductive Origin
  | header | path | dotted
  deriving DecidableEq, Repr

/-- A table under construction, an array of such tables with the last one apart and the earlier
ones from the latest to the first, or a value. -/
inductive Node
  | value (v : Value)
  | table (origin : Origin) (entries : List (Text × Node))
  | tables (earlier : List (List (Text × Node))) (last : List (Text × Node))

namespace Node

abbrev Entries := List (Text × Node)

def replace (key : Text) (node : Node) : Entries → Entries
  | [] => [(key, node)]
  | (k, n) :: entries =>
    if k = key then (key, node) :: entries else (k, n) :: replace key node entries

/-- Changes the table that a header path leads to; missing tables are made. -/
def along (change : Entries → Option Entries) : List Text → Entries → Option Entries
  | [], entries => change entries
  | key :: path, entries =>
    match entries.lookup key with
    | none => (along change path []).map fun sub => replace key (.table .path sub) entries
    | some (.value _) => none
    | some (.table origin sub) =>
      (along change path sub).map fun sub => replace key (.table origin sub) entries
    | some (.tables earlier last) =>
      (along change path last).map fun last => replace key (.tables earlier last) entries

/-- Opens a table by its header; only a table on the way to another one may stand there. -/
def openTable (key : Text) (entries : Entries) : Option Entries :=
  match entries.lookup key with
  | none => some (replace key (.table .header []) entries)
  | some (.table .path sub) => some (replace key (.table .header sub) entries)
  | some _ => none

def openItem (key : Text) (entries : Entries) : Option Entries :=
  match entries.lookup key with
  | none => some (replace key (.tables [] []) entries)
  | some (.tables earlier last) => some (replace key (.tables (last :: earlier) []) entries)
  | some _ => none

/-- Puts a value under a dotted key. `fits` says whether a plain key may be put right here: in the
table of the header, and in tables made by dotted keys. -/
def assign (fits : Bool) (v : Value) : List Text → Entries → Option Entries
  | [], _ => none
  | [key], entries =>
    if fits && (entries.lookup key).isNone then some (replace key (.value v) entries) else none
  | key :: path, entries =>
    match entries.lookup key with
    | none => (assign true v path []).map fun sub => replace key (.table .dotted sub) entries
    | some (.value _) => none
    | some (.table origin sub) =>
      if origin = .header then none
      else (assign (origin = .dotted) v path sub).map fun sub =>
        replace key (.table origin sub) entries
    | some (.tables earlier last) =>
      (assign false v path last).map fun last => replace key (.tables earlier last) entries

mutual

def toValue : Node → Value
  | .value v => v
  | .table _ entries => .table (toTable entries)
  | .tables earlier last => .array (.table (toTable last) :: toTables earlier).reverse

def toTable : List (Text × Node) → Table
  | [] => []
  | (key, node) :: entries => (key, node.toValue) :: toTable entries

def toTables : List (List (Text × Node)) → List Value
  | [] => []
  | entries :: rest => .table (toTable entries) :: toTables rest

end

end Node

def inlineTable (pairs : List (List Text × Value)) : Option Table :=
  (pairs.foldlM (fun entries (key, v) => Node.assign true v key entries) []).map Node.toTable

inductive Statement
  | openTable (path : List Text)
  | openItem (path : List Text)
  | assign (key : List Text) (v : Value)

namespace Statement

/-- The path of the open table and the entries of the document after a statement. -/
def run : List Text × Node.Entries → Statement → Option (List Text × Node.Entries)
  | (_, entries), .openTable path =>
    path.getLast?.bind fun key =>
      (Node.along (Node.openTable key) path.dropLast entries).map (path, ·)
  | (_, entries), .openItem path =>
    path.getLast?.bind fun key =>
      (Node.along (Node.openItem key) path.dropLast entries).map (path, ·)
  | (path, entries), .assign key v =>
    (Node.along (Node.assign true v key) path entries).map (path, ·)

def table (statements : List Statement) : Option Table :=
  (statements.foldlM run ([], [])).map fun (_, entries) => Node.toTable entries

end Statement
end Countermand.Toml

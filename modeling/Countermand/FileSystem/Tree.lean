import Countermand.FileSystem
import Countermand.Path

/-! A file system kept in memory. A place is the list of names on the way to it from the root; a
path is followed name by name, and only through directories and links to them. -/
namespace Countermand.FileSystem

inductive Node
  | file (content : Bytes)
  | directory
  | other
  /-- A link to a place that is no link and has none on the way to it. -/
  | link (target : List Text)
  deriving DecidableEq, Repr

/-- What stands at each place but the root. -/
abbrev Tree := List (List Text × Node)

/-- A path that takes up this many bytes is refused. -/
def pathLimit : Nat := 4096

namespace Tree

def node? (t : Tree) (place : List Text) : Option Node :=
  if place = [] then some .directory else t.lookup place

/-- Puts a node at a place, with the directories on the way to it. -/
def plant (t : Tree) (place : List Text) (node : Node) : Tree :=
  let missing := (List.range place.length).filterMap fun n =>
    let way := place.take n
    if (node? t way).isNone then some (way, Node.directory) else none
  (place, node) :: missing ++ t

/-- Where some names lead from a place; every name but the last must lead to a directory. -/
def follow (t : Tree) (place : List Text) : List Text → Option (List Text)
  | [] => some place
  | name :: names =>
    if t.node? place ≠ some .directory then none
    else if name = [] ∨ name = ['.'] then t.follow place names
    else if name = ['.', '.'] then t.follow place.dropLast names
    else
      match t.node? (place ++ [name]) with
      | none => none
      | some (.link target) => t.follow target names
      | some _ => t.follow (place ++ [name]) names

def locate (t : Tree) (workingDirectory : List Text) (p : Text) : Option (List Text) :=
  if p = [] ∨ pathLimit ≤ Text.Utf8.size p then none
  else t.follow (if Path.isAbsolute p then [] else workingDirectory) (Text.splitOn '/' p)

def find? (t : Tree) (workingDirectory : List Text) (p : Text) : Option Node :=
  (t.locate workingDirectory p).bind t.node?

def names (t : Tree) (place : List Text) : List Text :=
  t.filterMap fun (other, _) =>
    match other.getLast? with
    | some name => if other.dropLast = place then some name else none
    | none => none

def fileSystem (t : Tree) (workingDirectory : List Text) : FileSystem where
  kind? p := (t.find? workingDirectory p).map fun
    | .file _ => .file
    | .directory => .directory
    | .other | .link _ => .other
  read? p := (t.find? workingDirectory p).bind fun
    | .file content => some content
    | _ => none
  list? p :=
    (t.locate workingDirectory p).bind fun place =>
      if t.node? place = some .directory then some (t.names place).eraseDups else none
  real? p :=
    (t.locate workingDirectory p).bind fun place =>
      (t.node? place).map fun _ => Path.ofPlace place.reverse

end Tree
end Countermand.FileSystem

import Countermand.Text.Utf8

/-! What a program can ask of a file system, as a record of its answers. -/
namespace Countermand

inductive NodeKind
  | file | directory | other
  deriving DecidableEq, Repr

structure FileSystem where
  /-- What stands at a path, if anything does. -/
  kind? : Text → Option NodeKind
  /-- The content of a file, if it can be read. -/
  read? : Text → Option Bytes
  /-- The names in a directory, in any order, if it can be listed. -/
  list? : Text → Option (List Text)
  /-- The path from the root, without links on it, of what stands at a path. -/
  real? : Text → Option Text

namespace FileSystem

def exists? (fs : FileSystem) (p : Text) : Bool := (fs.kind? p).isSome

def isFile (fs : FileSystem) (p : Text) : Bool := fs.kind? p == some .file

def isDirectory (fs : FileSystem) (p : Text) : Bool := fs.kind? p == some .directory

end FileSystem
end Countermand

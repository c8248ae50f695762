import Countermand.Registry
import Countermand.Path

/-! The registries in a list of directories. Within a directory they come in the order of their
names, whatever the order in which the file system lists them. -/
namespace Countermand.Registry

def isHidden (name : Text) : Bool := name.head? == some '.'

/-- The files of a directory in the order of their names, without hidden ones; nothing if there
is no such directory. -/
def pathsIn (files : FileSystem) (directory : Text) : List Text :=
  if files.isDirectory directory then
    let names := ((files.list? directory).getD []).filter fun name =>
      !isHidden name && files.isFile (Path.child directory name)
    (names.mergeSort Text.atMost).map (Path.child directory)
  else []

def paths (files : FileSystem) (directories : List Text) : List Text :=
  directories.flatMap (pathsIn files)

/-- The registries that can be loaded; others are passed over. -/
def loadAll (files : FileSystem) (directories : List Text) : List Registry :=
  (paths files directories).filterMap fun path => (load files path).toOption

end Countermand.Registry

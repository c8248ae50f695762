import Countermand.CommandLine
import Countermand.FileSystem.Tree

/-! The program. What the library may ask of the machine is looked up beforehand: directories of
registries with the content of their files, and the kinds of what stands around the words of the
command line. Only programs that succeed or fail at once can be run. -/
namespace Countermand

open FileSystem (Tree Node)

def readBytes? (path : String) : IO (Option Bytes) := do
  try
    return some (← IO.FS.readBinFile path).toList
  catch _ => return none

def look (content : Bool) (path : Text) : IO (Option Node) := do
  let p := (← IO.currentDir) / String.ofList path
  if ← p.isDir then return some .directory
  else if ← p.pathExists then
    if (← p.metadata).type != .file then return some .other
    else if content then return (← readBytes? p.toString).map .file
    else return some (.file [])
  else return none

def realPlace (path : Text) : IO (List Text) := do
  let real ← IO.FS.realPath ((← IO.currentDir) / String.ofList path)
  return Path.steps real.toString.toList

def namesIn (path : Text) : IO (List Text) := do
  let entries ← ((← IO.currentDir) / String.ofList path).readDir
  return entries.toList.map fun entry => entry.fileName.toList

/-- Adds what stands at a path, with the link there if it is one, and what stands in a directory up
to some depth. -/
def survey (content : Bool) (depth : Nat) (tree : Tree) (path : Text) : IO Tree := do
  match ← look content path with
  | none => return tree
  | some node =>
    let place ← realPlace path
    let name := Path.basename path
    let linked ←
      if name ∈ [[], ['.'], ['.', '.']] then pure tree
      else do
        let own := (← realPlace (Path.dirname path)) ++ [name]
        pure (if own = place then tree else tree.plant own (.link place))
    let tree := linked.plant place node
    match node, depth with
    | .directory, depth + 1 =>
      (← namesIn path).foldlM
        (fun tree name => survey content depth tree (Path.child path name)) tree
    | _, _ => return tree

def processEnvironment : IO (List (Text × Text)) := do
  let bytes ← readBytes? "/proc/self/environ"
  return (Text.splitOn '\x00' (Text.Utf8.decodeLossy (bytes.getD []))).filterMap (Text.cutAt ['='])

def parentShell? : IO (Option Text) := do
  let status ← readBytes? "/proc/self/stat"
  match Text.cutAtLast ')' (Text.Utf8.decodeLossy (status.getD [])) with
  | none => return none
  | some (_, after) =>
    match Text.fields Text.isBlank after with
    | _ :: parent :: _ =>
      let name ← readBytes? s!"/proc/{String.ofList parent}/comm"
      return name.bind fun bytes => Shell.name? (Text.Utf8.decodeLossy bytes)
    | _ => return none

def leading (path : Text) : List Text :=
  ((List.range path.length).filterMap fun n =>
    if path[n]? = some '/' then some (path.take n) else none) ++ [path]

/-- The paths at which the programs that can be run may stand. -/
def barePaths (host : Host) (home : Option Text) : List Text :=
  let directories := CommandLine.searchPath host
  let all := directories ++ directories.map (CommandLine.expandTilde (home.getD [])) ++
    ["/bin".toList, "/usr/bin".toList]
  ["true", "false"].flatMap fun name => CommandLine.programPaths host all name.toList

def surveyMachine (arguments : List Text) : IO CommandLine.Machine := do
  let workingDirectory := (← IO.currentDir).toString.toList
  let environment ← processEnvironment
  let shell ← parentShell?
  let place := Path.steps workingDirectory
  let host (tree : Tree) : Host := ⟨tree.fileSystem place, workingDirectory, environment⟩
  let home := Settings.home? (host []) none
  let words := arguments.flatMap fun argument => argument :: (Text.words? argument).getD []
  let tree ← (['.'] :: (words ++ barePaths (host []) home).flatMap leading).foldlM
    (survey false 1) (Tree.plant [] place .directory)
  let tree ← (home.map Settings.pathIn).toList.foldlM (survey true 0) tree
  let directories := match Settings.load (host tree) none with
    | .ok settings => settings.directories
    | .error _ => []
  let tree ← directories.foldlM (survey true 1) tree
  return ⟨host tree, CommandLine.barePrograms (host tree) home, shell, none⟩

/-- What was typed, if the options lead to a question. -/
def readInput (arguments : List Text) : IO Bytes := do
  match CommandLine.Options.read arguments with
  | .ok options =>
    if options.interactive then return (← (← IO.getStdin).read 65536).toList else return []
  | .error _ => return []

end Countermand

open Countermand

def main (arguments : List String) : IO UInt32 := do
  let words := arguments.map String.toList
  let report := CommandLine.run (← surveyMachine words) words (← readInput words)
  IO.print (String.ofList report.output)
  (← IO.getStdout).flush
  if let some reason := report.failure then IO.eprintln s!"Error: {String.ofList reason}"
  return UInt32.ofNat report.status

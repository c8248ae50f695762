import Countermand.Host
import Countermand.Registry.Resolution
import Countermand.Text.Quoted
import Countermand.Toml.Decoding

/-! Settings: from a file in the home directory, with overrides from variables of the process. -/
namespace Countermand

structure Settings where
  directories : List Text
  imprecise : Bool
  exhaustive : Bool
  /-- The shell, if it is not to be found out. -/
  shell : Option Text
  /-- What stands between commands that are shown together. -/
  separator : Text
  deriving DecidableEq, Repr

inductive SettingsError
  | directory | unreadable | undecodable | malformed | noHome
  deriving DecidableEq, Repr

namespace SettingsError

def message : SettingsError → String
  | .directory => "Is a directory (os error 21)"
  | .unreadable => "could not read the configuration"
  | .undecodable => "stream did not contain valid UTF-8"
  | .malformed => "could not deserialize the configuration"
  | .noHome => "Could not find home directory"

end SettingsError

namespace Settings

def defaults : Settings := ⟨[], false, false, none, "; ".toList⟩

def search (settings : Settings) : Search := ⟨settings.exhaustive, settings.imprecise⟩

def ofTable? (t : Toml.Table) : Option Settings := do
  return {
    directories := ← t.fieldOr "include_dirs" Toml.Value.strings? defaults.directories
    imprecise := ← t.fieldOr "allow_imprecise" Toml.Value.boolean? defaults.imprecise
    exhaustive := ← t.fieldOr "search_all" Toml.Value.boolean? defaults.exhaustive
    shell := ← t.field? "shell" Toml.Value.string?
    separator := ← t.fieldOr "command_separator" Toml.Value.string? defaults.separator }

def loadFile (files : FileSystem) (path : Text) : Except SettingsError Settings :=
  match files.read? path with
  | none => .error (if files.isDirectory path then .directory else .unreadable)
  | some content =>
    match Text.Utf8.decode? content with
    | none => .error .undecodable
    | some t =>
      match (Toml.read t).bind ofTable? with
      | none => .error .malformed
      | some settings => .ok settings

/-- The environment wins over the file. The list of directories is replaced even by an empty one,
but an empty shell changes nothing. -/
def overriddenBy (environment : List (Text × Text)) (settings : Settings) : Settings where
  directories :=
    match environment.lookup "UNDO_INCLUDE_DIRS".toList with
    | some directories => Text.fields (· == ':') directories
    | none => settings.directories
  imprecise := settings.imprecise
  exhaustive := settings.exhaustive
  shell :=
    match environment.lookup "UNDO_SHELL".toList with
    | none | some [] => settings.shell
    | some shell => some shell
  separator := settings.separator

/-- The home directory: the variable for it, or else the one of the user's account. -/
def home? (host : Host) (accountHome : Option Text) : Option Text :=
  match host.variableText "HOME".toList with
  | [] => accountHome
  | home => some home

def pathIn (home : Text) : Text := Path.child (Path.child home ".undo".toList) "config.toml".toList

def usualDirectories (home : Option Text) : List Text :=
  ["/usr/share/undo".toList, "/usr/local/share/undo".toList] ++
    (home.map fun home => [".local", "share", "undo"].foldl
      (fun path step => Path.child path step.toList) home).toList

/-- The settings of the file in the home directory, which may be missing. -/
def ofHome (files : FileSystem) : Option Text → Except SettingsError Settings
  | none => .ok defaults
  | some home => if files.exists? (pathIn home) then loadFile files (pathIn home) else .ok defaults

def load (host : Host) (accountHome : Option Text) : Except SettingsError Settings := do
  let home := home? host accountHome
  let settings := (← ofHome host.files home).overriddenBy host.environment
  if settings.directories = [] then return { settings with directories := usualDirectories home }
  else return settings

def describe (settings : Settings) (files : FileSystem) (path : Text) : List Text :=
  let found := if files.exists? path then "Found" else "Not found (using defaults)"
  let directory (d : Text) : Text :=
    "  ".toList ++ d ++ (if files.isDirectory d then [] else " (missing)".toList)
  ["Configuration file: ".toList ++ path,
    s!"Status: {found}".toList,
    "Include directories:".toList] ++
  settings.directories.map directory ++
  [s!"Allow imprecise: {settings.imprecise}".toList,
    s!"Search all: {settings.exhaustive}".toList,
    "Shell: ".toList ++ settings.shell.getD "(detected)".toList,
    "Command separator: ".toList ++ Text.quoted settings.separator,
    [],
    "Environment overrides:".toList,
    "  export UNDO_INCLUDE_DIRS=<dir>:<dir>".toList,
    "  export UNDO_SHELL=<shell>".toList]

end Settings
end Countermand

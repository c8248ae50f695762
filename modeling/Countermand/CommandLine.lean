import Countermand.Undoing
import Countermand.CommandLine.Options

/-! The program behind the command line, from its arguments to its exit status. -/
namespace Countermand.CommandLine

/-- What the program finds when it is started. -/
structure Machine where
  host : Host
  programs : Programs
  callingShell : Option Text
  /-- The home directory of the user's account. -/
  accountHome : Option Text

def searchPath (host : Host) : List Text :=
  ((host.environment.lookup "PATH".toList).map (Text.splitOn ':')).getD []

/-- A tilde in front of a directory stands for the home directory. -/
def expandTilde (home : Text) : Text → Text
  | ['~'] => home
  | '~' :: '/' :: rest => Path.child home (rest.dropWhile (· = '/'))
  | directory => directory

/-- The paths at which a program may stand: its own if there is a slash in it, or else one in each
of some directories. -/
def programPaths (host : Host) (directories : List Text) (program : Text) : List Text :=
  if '/' ∈ program then [Path.child host.workingDirectory program]
  else directories.map fun directory => Path.child directory program

/-- A word that takes up this many bytes is not handed over to a program. -/
def wordLimit : Nat := 0x20000

/-- A machine on which only those programs are there that succeed or fail at once. Tildes in the
search path count while a program is looked for, but not when it is started. -/
def barePrograms (host : Host) (home : Option Text) : Programs :=
  let standsIn (name : String) (directories : List Text) (program : Text) : Bool :=
    (programPaths host directories program).any fun path =>
      ["/bin/", "/usr/bin/"].any fun directory =>
        host.files.real? path = some (directory ++ name).toList
  let status (i : Invocation) : Except Text Nat :=
    if i.words.any fun word => word.contains '\x00' then
      .error "nul byte found in provided data".toList
    else if i.words.any fun word => wordLimit ≤ Text.Utf8.size word then
      .error "Argument list too long (os error 7)".toList
    else if standsIn "true" (searchPath host) i.program then .ok 0
    else if standsIn "false" (searchPath host) i.program then .ok 1
    else .error "No such file or directory (os error 2)".toList
  let expanded := (searchPath host).map (expandTilde (home.getD []))
  { present := fun _ program =>
      standsIn "true" expanded program || standsIn "false" expanded program
    start := fun _ i => status i
    capture := fun _ i => (status i).map (·, []) }

structure Report where
  status : Nat
  output : Text
  /-- Why it failed, if it did after its arguments were understood. -/
  failure : Option Text
  session : Session

namespace Report

def success (session : Session) : Report := ⟨0, session.output, none, session⟩

def failed (session : Session) (reason : String) : Report :=
  ⟨1, session.output, some reason.toList, session⟩

def misused (session : Session) : Report := ⟨2, session.output, none, session⟩

def ofAct {α : Type} (act : Act α) (session : Session) : Report :=
  match act.run session with
  | (.ok _, session) => success session
  | (.error e, session) => failed session e.message

end Report

def showSettings (machine : Machine) (settings : Settings) (session : Session) : Report :=
  match Settings.home? machine.host machine.accountHome with
  | none => .failed session SettingsError.noHome.message
  | some home =>
    .ofAct ((settings.describe machine.host.files (Settings.pathIn home)).forM Session.writeLine)
      session

def obey (machine : Machine) (options : Options) (session : Session) : Report :=
  match Settings.load machine.host machine.accountHome with
  | .error e => .failed session e.message
  | .ok settings =>
    let settings := options.amend settings
    if options.showSettings then showSettings machine settings session
    else
      let u : Undoer := ⟨machine.host, machine.programs, settings, machine.callingShell⟩
      .ofAct (u.run options.request) session

def run (machine : Machine) (arguments : List Text) (input : Bytes) : Report :=
  let session : Session := ⟨input, [], []⟩
  match Options.read arguments with
  | .ok options => obey machine options session
  | .error .misused => .misused session
  | .error .help => .ofAct (Options.help.forM Session.writeLine) session

end Countermand.CommandLine

import Countermand.Dialogue
import Countermand.Registry.Directory
import Countermand.Settings
import Countermand.Shell
import Countermand.Shell.History
import Countermand.Template.Expansion

/-! Taking a command back: finding the candidates, letting the user choose, and running what was
chosen. Choosing runs nothing; only the commands of a chosen candidate are run. -/
namespace Countermand

/-- Commands that take a command back, run one after the other. -/
structure Candidate where
  commands : List Text
  display : Text
  source : Text
  deriving DecidableEq, Repr

structure Request where
  /-- The command to take back, if it is not the last one of the shell's history. -/
  command : Option Text
  dry : Bool
  interactive : Bool
  deriving DecidableEq, Repr

inductive Outcome
  | nothingFound
  | nothingSelected
  | shown (candidates : List Candidate)
  | ran (candidate : Candidate)
  deriving DecidableEq, Repr

/-- What comes of choosing: nothing is left to do, or a candidate is to be run. -/
inductive Choice
  | settled (outcome : Outcome)
  | taken (candidate : Candidate)
  deriving DecidableEq, Repr

namespace Request

def pick : List Candidate → Act (Option Candidate)
  | [candidate] => do
    if ← Dialogue.confirm candidate.display then return some candidate else return none
  | candidates => do
    match ← Dialogue.select (candidates.map Candidate.display) with
    | some position => return candidates[position]?
    | none => return none

/-- Chooses among the candidates for a command. -/
def choose (request : Request) (command : Text) (candidates : List Candidate) : Act Choice :=
  let displays := candidates.map Candidate.display
  if candidates = [] then do
    Dialogue.showNoMatch command
    return .settled .nothingFound
  else if request.dry then do
    Dialogue.showDryRun displays
    return .settled (.shown candidates)
  else if request.interactive then do
    match ← pick candidates with
    | some candidate => return .taken candidate
    | none => do
      Dialogue.showNothingSelected
      return .settled .nothingSelected
  else
    match candidates with
    | [candidate] => return .taken candidate
    | _ => do
      Dialogue.showCandidates displays
      return .settled (.shown candidates)

end Request

structure Undoer where
  host : Host
  programs : Programs
  settings : Settings
  /-- The shell from which the request comes, as far as it is known. -/
  callingShell : Option Text

namespace Undoer

def shell? (u : Undoer) : Option Text :=
  match u.settings.shell with
  | some shell => Shell.name? shell
  | none => u.callingShell

/-- The candidate of a resolution; none if its template cannot be expanded or gives no command. -/
def candidate? (u : Undoer) (r : Resolution) : Option Candidate :=
  match Template.expand u.host r.bindings .percent none r.entry.template with
  | .error _ => none
  | .ok expanded =>
    if expanded.commands = [] then none
    else some ⟨expanded.commands, u.settings.separator.intercalate expanded.commands, r.source⟩

def candidates (u : Undoer) (command shell : Text) : Except Failure (List Candidate) := do
  let i ← Invocation.ofCommand command
  let registries := Registry.loadAll u.host.files u.settings.directories
  return (Registry.resolve u.settings.search shell i.words registries).filterMap u.candidate?

def command (u : Undoer) (shell : Text) (request : Request) : Act Text :=
  match request.command with
  | some command => pure command
  | none => do
    match (← Shell.history u.programs shell 1).getLast? with
    | some command => return command
    | none => throw (.emptyHistory shell)

def run (u : Undoer) (request : Request) : Act Outcome := do
  match u.shell? with
  | none => throw .unknownShell
  | some shell => do
    let command ← u.command shell request
    let candidates ← Session.ofExcept (u.candidates command shell)
    match ← request.choose command candidates with
    | .settled outcome => return outcome
    | .taken candidate => do
      Session.runAll u.programs candidate.commands
      return .ran candidate

end Undoer
end Countermand

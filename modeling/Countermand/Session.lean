import Countermand.Invocation

/-! A session: what was typed, what was written and which programs were invoked. The state of a
session outlives a failure, so nothing that was done is forgotten. -/
namespace Countermand

structure Session where
  /-- What was typed and not read yet. -/
  input : Bytes
  output : Text
  /-- Every invocation, the latest last; one that was refused counts as well. -/
  invocations : List Invocation
  deriving DecidableEq, Repr

abbrev Act (α : Type) := ExceptT Failure (StateM Session) α

namespace Session

def write (t : Text) : Act Unit :=
  modify fun session => { session with output := session.output ++ t }

def writeLine (t : Text) : Act Unit := write (t ++ ['\n'])

/-- The first line with its line feed, and what follows it. -/
def takeLine (bytes : Bytes) : Bytes × Bytes :=
  let line := bytes.takeWhile (· ≠ 10)
  let rest := bytes.dropWhile (· ≠ 10)
  (line ++ rest.take 1, rest.drop 1)

/-- Reads a line; one that is not UTF-8 is used up all the same. -/
def readLine : Act Text := do
  let session ← get
  let (line, rest) := takeLine session.input
  set { session with input := rest }
  match Text.Utf8.decode? line with
  | some t => return t
  | none => throw .undecodable

def record (i : Invocation) : Act Unit :=
  modify fun session => { session with invocations := session.invocations ++ [i] }

def ofExcept {α : Type} : Except Failure α → Act α
  | .ok a => pure a
  | .error e => throw e

def start (programs : Programs) (i : Invocation) : Act Nat := do
  let before := (← get).invocations
  record i
  ofExcept ((programs.start before i).mapError .refused)

def capture (programs : Programs) (i : Invocation) : Act (Nat × Bytes) := do
  let before := (← get).invocations
  record i
  ofExcept ((programs.capture before i).mapError .refused)

/-- Runs a command line, which must come to a successful end. -/
def run (programs : Programs) (command : Text) : Act Unit := do
  let i ← ofExcept (Invocation.ofCommand command)
  if programs.present (← get).invocations i.program = false then throw (.programMissing i.program)
  let status ← start programs i
  if status ≠ 0 then throw (.exited command status)

/-- Runs command lines up to the first failure. -/
def runAll (programs : Programs) : List Text → Act Unit
  | [] => pure ()
  | command :: commands => do
    run programs command
    runAll programs commands

end Session
end Countermand

import Countermand.Failure
import Countermand.Text.Words
import Countermand.Text.Utf8

/-! Invocations of programs, and what programs do when they are invoked. -/
namespace Countermand

/-- A program with its arguments, each handed over as it is. -/
structure Invocation where
  program : Text
  arguments : List Text
  deriving DecidableEq, Repr

namespace Invocation

def words (i : Invocation) : List Text := i.program :: i.arguments

def ofCommand (command : Text) : Except Failure Invocation :=
  match Text.words? command with
  | none => .error (.unsplittable command)
  | some [] => .error .noWords
  | some (program :: arguments) => .ok ⟨program, arguments⟩

end Invocation

/-- The answers of the programs on a machine. Each may depend on the invocations before it. -/
structure Programs where
  present : List Invocation → Text → Bool
  /-- The exit status, or why the program could not be started. -/
  start : List Invocation → Invocation → Except Text Nat
  /-- The exit status together with what the program wrote. -/
  capture : List Invocation → Invocation → Except Text (Nat × Bytes)

end Countermand

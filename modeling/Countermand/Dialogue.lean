import Countermand.Session
import Countermand.Text.Numeral

/-! What is said to the user, and what the answers mean. -/
namespace Countermand.Dialogue

/-- Asks whether to run a command; an empty answer means yes. -/
def confirm (command : Text) : Act Bool := do
  Session.write ("run command '".toList ++ command ++ "'? [Y/n] ".toList)
  let answer := Text.trim (← Session.readLine)
  return answer = [] || answer = ['y'] || answer = ['Y']

def numbered (number : Nat) : List Text → Text
  | [] => []
  | command :: commands =>
    "  ".toList ++ Text.ofNat number ++ " ) ".toList ++ command ++
      '\n' :: numbered (number + 1) commands

/-- What a line says in answer to a menu of `count` commands: the position of a command, or a
complaint. The commands are numbered from one. -/
def selection (count : Nat) (line : Text) : Except Text Nat :=
  let answer := Text.trim line
  match Text.readCount? answer with
  | none => .error ("input '".toList ++ answer ++ "' is not a valid number".toList)
  | some n =>
    if 1 ≤ n ∧ n ≤ count then .ok (n - 1)
    else .error ("input '".toList ++ Text.ofNat n ++ "' does not match any command".toList)

/-- Shows a menu and reads which command was chosen. Nothing is asked again. -/
def select (commands : List Text) : Act (Option Nat) := do
  Session.writeLine
    "Please select the command to run (invalid input will run no commands):".toList
  Session.write (numbered 1 commands)
  Session.write "selection: ".toList
  match selection commands.length (← Session.readLine) with
  | .ok position => return some position
  | .error complaint => do
    Session.writeLine complaint
    return none

def showCandidates (commands : List Text) : Act Unit := do
  Session.writeLine
    "multiple undo commands found, copy one of the commands below to run:".toList
  Session.write (numbered 1 commands)

def showDryRun (commands : List Text) : Act Unit :=
  Session.write (commands.flatMap (· ++ ['\n']))

def showNoMatch (command : Text) : Act Unit :=
  Session.writeLine ("no command was found to undo '".toList ++ command ++ "'".toList)

def showNothingSelected : Act Unit := Session.writeLine "no command was selected".toList

end Countermand.Dialogue

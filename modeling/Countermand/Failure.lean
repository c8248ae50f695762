import Countermand.Text

/-! What can keep a command from being taken back. -/
namespace Countermand

inductive Failure
  /-- A quote is left open, or a backslash stands last. -/
  | unsplittable (command : Text)
  | noWords
  | programMissing (program : Text)
  /-- A program could not be started. -/
  | refused (reason : Text)
  | exited (command : Text) (status : Nat)
  | historyExited (status : Nat)
  | historyLine (line : Text)
  | unsupportedShell (shell : Text)
  | unknownShell
  | emptyHistory (shell : Text)
  | undecodable
  deriving DecidableEq, Repr

namespace Failure

def message : Failure → String
  | .unsplittable command => s!"Could not split command '{String.ofList command}'"
  | .noWords => "No command provided"
  | .programMissing program => s!"Command '{String.ofList program}' not found"
  | .refused reason => String.ofList reason
  | .exited command status => s!"'{String.ofList command}' failed with exit status: {status}"
  | .historyExited status => s!"history command failed with exit status: {status}"
  | .historyLine line => s!"could not parse command from history line '{String.ofList line}'"
  | .unsupportedShell shell => s!"unsupported shell '{String.ofList shell}'"
  | .unknownShell => "Could not determine the current shell"
  | .emptyHistory shell => s!"No previous command found in {String.ofList shell} history"
  | .undecodable => "stream did not contain valid UTF-8"

end Failure
end Countermand

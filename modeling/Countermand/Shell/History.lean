import Countermand.Session

/-! The latest commands of a shell, which the shell itself is asked for. The question is the newest
command, so the last line of the answer is left out. -/
namespace Countermand

/-- How a shell prints a command of its history: after a number, or as it is. -/
inductive HistoryFormat
  | numbered | plain
  deriving DecidableEq, Repr

namespace HistoryFormat

def ofShell? (shell : Text) : Option HistoryFormat :=
  if shell = "sh".toList ∨ shell = "bash".toList then some .numbered
  else if shell = "fish".toList then some .plain
  else none

def question (format : HistoryFormat) (shell : Text) (count : Nat) : Invocation :=
  match format with
  | .numbered => ⟨shell, ["-c".toList, s!"history {count}".toList]⟩
  | .plain => ⟨shell, ["--command".toList, s!"history --reverse --max {count}".toList]⟩

/-- The blank characters of ASCII, which set a number apart. -/
def isGap (c : Char) : Bool := c == ' ' || (9 ≤ c.toNat && c.toNat ≤ 13)

/-- The command after its number; numbers do not start with a zero. -/
def afterNumber? (line : Text) : Option Text :=
  match line.dropWhile isGap with
  | [] => none
  | c :: rest =>
    if c.isDigit && c != '0' then
      match rest.dropWhile Char.isDigit with
      | [] => none
      | d :: command => if isGap d then some (command.dropWhile isGap) else none
    else none

def command (format : HistoryFormat) (line : Text) : Except Failure Text :=
  match format with
  | .plain => .ok line
  | .numbered =>
    match afterNumber? line with
    | some command => .ok command
    | none => .error (.historyLine line)

/-- At most `limit` commands from the lines right before the last one. -/
def commands (format : HistoryFormat) (limit : Nat) (t : Text) : Except Failure (List Text) :=
  let earlier := (Text.lines t).dropLast.map Text.trimEnd
  (earlier.drop (earlier.length - limit)).mapM format.command

end HistoryFormat

namespace Shell

def history (programs : Programs) (shell : Text) (limit : Nat) : Act (List Text) :=
  match HistoryFormat.ofShell? shell with
  | none => throw (.unsupportedShell shell)
  | some format => do
    let (status, printed) ← Session.capture programs (format.question shell (limit + 1))
    if status ≠ 0 then throw (.historyExited status)
    Session.ofExcept (format.commands limit (Text.Utf8.decodeLossy printed))

end Shell
end Countermand

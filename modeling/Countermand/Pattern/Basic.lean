import Countermand.Text.Numeral

/-! Command patterns: the command lines that a registry entry is about. -/
namespace Countermand

/-- How many values an argument takes, which also decides the shape of its value. -/
inductive Quantifier
  | flag
  /-- A value that can only be attached to the name. -/
  | optional
  | exactly (count : Nat)
  | atLeastOne
  | any
  deriving DecidableEq, Repr

namespace Quantifier

def least : Quantifier → Nat
  | .exactly count => count
  | .atLeastOne => 1
  | .flag | .optional | .any => 0

def most? : Quantifier → Option Nat
  | .flag => some 0
  | .optional => some 1
  | .exactly count => some count
  | .atLeastOne | .any => none

/-- No value is taken, so only presence counts. -/
def isFlag (q : Quantifier) : Bool := q = .flag || q = .exactly 0

end Quantifier

structure Argument where
  variableName : Option Text
  quantifier : Quantifier
  spellings : List Text
  positional : Bool
  required : Bool
  /-- What stands between the items of a list that is written as one word. -/
  delimiter : Option Text
  deriving DecidableEq, Repr

/-- Options of which at least one must be set if the group is required. -/
structure Group where
  required : Bool
  members : List Argument
  deriving DecidableEq, Repr

structure Pattern where
  command : Text
  subcommands : List Text
  arguments : List Argument
  groups : List Group
  deriving DecidableEq, Repr

inductive PatternFault
  | lateCommand | commandName | noCommand | unclosed
  | groupBrackets | noMember | positionalMember | requiredMember | emptyGroup
  | argumentBrackets | mixedBrackets (opening closing : Char) | missingColon
  | spelling | conflict | optionalPositional | positionalFlag
  | emptyDelimiter | unclosedValue | valueQuantifier | valueSpecification | quantifier
  deriving DecidableEq, Repr

namespace PatternFault

def text : PatternFault → String
  | .lateCommand => "commands must precede arguments"
  | .commandName => "invalid command name"
  | .noCommand => "pattern has no command"
  | .unclosed => "missing closing bracket"
  | .groupBrackets => "argument group must be wrapped in '( )'"
  | .noMember => "expected an argument in group"
  | .positionalMember => "a group may not contain positional arguments"
  | .requiredMember => "group members must be optional"
  | .emptyGroup => "argument group is empty"
  | .argumentBrackets => "argument must be wrapped in '[ ]' or '< >'"
  | .mixedBrackets opening closing => s!"mismatching brace types '{opening}' and '{closing}'"
  | .missingColon => "expected ':' between value specification and names"
  | .spelling => "not a valid argument name"
  | .conflict => "conflicting value specification"
  | .optionalPositional =>
    "a positional argument may not be optional, use '?' or '*' as quantifier"
  | .positionalFlag => "a positional argument cannot be a flag"
  | .emptyDelimiter => "empty list delimiter"
  | .unclosedValue => "missing ']' after optional value"
  | .valueQuantifier => "optional value takes only an identifier"
  | .valueSpecification => "unknown value specification"
  | .quantifier => "unknown quantifier"

end PatternFault

structure PatternError where
  fault : PatternFault
  fragment : Text
  deriving DecidableEq, Repr

namespace PatternError

def message (e : PatternError) : String := s!"{e.fault.text}: '{String.ofList e.fragment}'"

end PatternError
end Countermand

import Countermand.Expression.Tree
import Countermand.Host
import Countermand.Value

/-! Evaluating expressions. A double-quoted string is a template of its own; how it is expanded
is a parameter here, so that evaluation follows the tree alone. -/
namespace Countermand

inductive Evaluated
  | text (body : Text)
  | list (items : List Text)
  | truth (holds : Bool)
  deriving DecidableEq, Repr

/-- One command, or one for each item of the lists that a template reads. -/
inductive Expanded
  | single (command : Text)
  | many (commands : List Text)
  deriving DecidableEq, Repr

inductive EvaluationError
  | unknownCall (name : Text)
  | missingDelimiter (name : Text)
  | unevenLists (expected found : Nat)
  | listSeparator (op : Operation) (position : Nat)
  deriving DecidableEq, Repr

inductive ExpansionError
  | unbalanced (opening template : Text)
  | unreadable (fragment : Text) (cause : ParseError)
  | evaluation (error : EvaluationError)
  deriving DecidableEq, Repr

namespace EvaluationError

def message : EvaluationError → String
  | .unknownCall name => s!"no such command '{String.ofList name}'"
  | .missingDelimiter name =>
    s!"cannot broadcast list '{String.ofList name}' without a delimiter"
  | .unevenLists expected found => s!"broadcast lists differ in length: {expected} and {found}"
  | .listSeparator op position =>
    s!"argument {position} of '{String.ofList op.name}' must be a single string"

end EvaluationError

namespace ExpansionError

def message : ExpansionError → String
  | .unbalanced opening template =>
    s!"unbalanced '{String.ofList opening}' in: {String.ofList template}"
  | .unreadable fragment cause =>
    s!"could not parse expression '{String.ofList fragment}': {cause.message}"
  | .evaluation error => error.message

end ExpansionError

namespace Operation

def named (name : Text) : Except EvaluationError Operation :=
  match ofName? name with
  | some op => .ok op
  | none => .error (.unknownCall name)

end Operation

namespace Check

def named (name : Text) : Except EvaluationError Check :=
  match ofName? name with
  | some k => .ok k
  | none => .error (.unknownCall name)

def holds (host : Host) : Check → Text → Bool
  | .present => host.files.exists?
  | .file => host.files.isFile
  | .directory => host.files.isDirectory

end Check

namespace Expanded

def evaluated : Expanded → Evaluated
  | .single command => .text command
  | .many commands => .list commands

def commands : Expanded → List Text
  | .single command => [command]
  | .many commands => commands

end Expanded

namespace Evaluated

def isTruthy : Evaluated → Bool
  | .text body => !body.isEmpty
  | .list items => !items.isEmpty
  | .truth holds => holds

def items : Evaluated → List Text
  | .text body => [body]
  | .list items => items
  | .truth holds => [Value.flagText holds]

end Evaluated

namespace Expression

/-- The value of a name: a list as it is and anything else as text; an unbound name is empty. -/
def lookup (b : Bindings) (name : Text) : Evaluated :=
  match b.get? name with
  | none => .text []
  | some (.list items) => .list items
  | some v => .text v.display

def joinSpread (name : Text) (delimiter : Option Text) (items : List Text) :
    Except ExpansionError Evaluated :=
  match delimiter with
  | some d => .ok (.text (d.intercalate items))
  | none => .error (.evaluation (.missingDelimiter name))

def evaluateName (b : Bindings) (name : Text) (spread : Spread) : Except ExpansionError Evaluated :=
  match lookup b name, spread with
  | .list items, .joined delimiter => joinSpread name delimiter items
  | v, _ => .ok v

def isSet (b : Bindings) (name : Text) : Bool := ((b.get? name).map Value.isSet).getD false

def apply (host : Host) : Operation → Text → Text
  | .dirname, t => Path.dirname t
  | .basename, t => Path.basename t
  | .abspath, t => Path.absolute host.workingDirectory t
  | .env, t => host.variableText t
  | .join, t => t

/-- Joins the items of the first argument by the second, which may not be a list. -/
def join : List Evaluated → Except ExpansionError Evaluated
  | items :: .text separator :: _ => .ok (.text (separator.intercalate items.items))
  | _ => .error (.evaluation (.listSeparator .join 2))

/-- Applies an operation to each item of its first argument. The results of a spread name are
joined again; further arguments are ignored. -/
def operate (host : Host) (op : Operation) (first? : Option Expression) :
    List Evaluated → Except ExpansionError Evaluated
  | [] => .ok (.text [])
  | .list items :: _ =>
    match first? with
    | some (.access name (.joined delimiter)) =>
      joinSpread name delimiter (items.map (apply host op))
    | _ => .ok (.list (items.map (apply host op)))
  | v :: _ => .ok (.text (apply host op v.items.flatten))

section
variable (host : Host) (b : Bindings) (nested : Text → Except ExpansionError Expanded)

mutual

def evaluateWith : Expression → Except ExpansionError Evaluated
  | .access name spread => evaluateName b name spread
  | .literal body => .ok (.text body)
  | .quoted body => Expanded.evaluated <$> nested body
  | .choice condition yes no => do
    if (← evaluateWith condition).isTruthy then evaluateWith yes
    else evaluateAlternative no
  | .existence negated name chain =>
    .truth <$> evaluateChain (isSet b name != negated) chain
  | .operation op arguments => do
    let values ← evaluateArguments arguments
    if op = .join then join values else operate host op arguments.head? values
  | .check negated k arguments chain => do
    let values ← evaluateArguments arguments
    .truth <$> evaluateChain ((values.flatMap Evaluated.items).all (k.holds host) != negated) chain

def evaluateAlternative : Option Expression → Except ExpansionError Evaluated
  | none => .ok (.text [])
  | some e => evaluateWith e

/-- The rest of a chain is evaluated only if it is not decided yet. -/
def evaluateChain (left : Bool) : Option (Connective × Expression) → Except ExpansionError Bool
  | none => .ok left
  | some (.and, right) => if left then Evaluated.isTruthy <$> evaluateWith right else .ok false
  | some (.or, right) => if left then .ok true else Evaluated.isTruthy <$> evaluateWith right

/-- A name that is spread hands its list over as it is. -/
def evaluateArguments : List Expression → Except ExpansionError (List Evaluated)
  | [] => .ok []
  | .access name (.joined _) :: rest => do
    return lookup b name :: (← evaluateArguments rest)
  | e :: rest => do
    let v ← evaluateWith e
    return v :: (← evaluateArguments rest)

end
end

end Expression
end Countermand

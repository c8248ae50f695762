import Countermand.Expression.Token

/-! Expression trees, and the errors of reading one. -/
namespace Countermand

inductive Connective
  | and | or
  deriving DecidableEq, Repr

/-- Whether an expression yields text or a truth value. -/
inductive ExpressionKind
  | value | conditional
  deriving DecidableEq, Repr

/-- How a name is read: as it is bound, or with the items of a list joined. -/
inductive Spread
  | plain
  | joined (delimiter : Option Text)
  deriving DecidableEq, Repr

/-- A condition carries the rest of its chain: `A && B || C` is `A && (B || C)`. -/
inductive Expression
  | access (name : Text) (spread : Spread)
  | literal (body : Text)
  | quoted (body : Text)
  | choice (condition yes : Expression) (no : Option Expression)
  | existence (negated : Bool) (name : Text) (chain : Option (Connective × Expression))
  | operation (op : Operation) (arguments : List Expression)
  | check (negated : Bool) (k : Check) (arguments : List Expression)
      (chain : Option (Connective × Expression))

inductive Goal
  | token (kind : TokenKind)
  | finish
  deriving DecidableEq, Repr

namespace Goal

def text : Goal → String
  | .token kind => kind.text
  | .finish => "end of input"

end Goal

inductive ParseError
  | token (error : TokenError)
  | unexpected (expected : Goal) (found : Token)
  | endOfInput
  | argumentCount (name : Text) (expected found : Nat)
  deriving DecidableEq, Repr

namespace ParseError

def message : ParseError → String
  | .token error => error.message
  | .unexpected expected found =>
    let body := String.ofList found.lexeme.body
    s!"expected {expected.text} but found {found.lexeme.kind.text} '{body}' at col {found.column}"
  | .endOfInput => "unexpected end of input"
  | .argumentCount name expected found =>
    s!"wrong argument count for '{String.ofList name}', expected {expected} but found {found}"

end ParseError

namespace Expression

def kind : Expression → ExpressionKind
  | .existence .. | .check .. => .conditional
  | _ => .value

def checkArity (name : Text) (arity : Nat) (arguments : List Expression) : Except ParseError Unit :=
  if arguments.length = arity then .ok () else .error (.argumentCount name arity arguments.length)

def callOperation (op : Operation) (arguments : List Expression) :
    Except ParseError Expression := do
  checkArity op.name op.arity arguments
  return .operation op arguments

end Expression
end Countermand

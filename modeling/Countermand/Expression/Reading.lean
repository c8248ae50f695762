import Countermand.Expression.Tree

/-! Reading expressions from tokens. The first token decides which form is read, so that no
token is read twice; every form leaves fewer tokens than it found. -/
namespace Countermand.Expression

/-- What was read from the front of some tokens, with the fewer tokens that are left. -/
abbrev Reading (α : Type) (tokens : List Token) :=
  Except ParseError (α × { rest : List Token // rest.length < tokens.length })

def expect (goal : TokenKind) (tokens : List Token) : Reading Unit tokens :=
  match tokens with
  | [] => .error .endOfInput
  | t :: rest =>
    if t.lexeme.kind = goal then .ok ((), ⟨rest, by simp⟩)
    else .error (.unexpected (.token goal) t)

/-- A name after the dollar sign, with dots that join a list by blanks. -/
def readAccessor (tokens : List Token) : Reading Expression tokens :=
  match tokens with
  | [] => .error .endOfInput
  | t :: rest =>
    match t.lexeme with
    | .word name =>
      match rest with
      | ⟨.ellipsis, _⟩ :: rest =>
        .ok (.access name (.joined (some " ".toList)),
          ⟨rest, by simp only [List.length_cons]; omega⟩)
      | rest => .ok (.access name .plain, ⟨rest, by simp⟩)
    | _ => .error (.unexpected (.token .word) t)

mutual

def readValue (tokens : List Token) : Reading Expression tokens :=
  match tokens with
  | [] => .error .endOfInput
  | t :: rest =>
    match t.lexeme with
    | .operation op => do
      let (arguments, ⟨rest, _⟩) ← readArguments rest
      let e ← callOperation op arguments
      return (e, ⟨rest, by simp only [List.length_cons]; omega⟩)
    | .literal body => .ok (.literal body, ⟨rest, by simp⟩)
    | .quoted body => .ok (.quoted body, ⟨rest, by simp⟩)
    | .dollar => do
      let (e, ⟨rest, _⟩) ← readAccessor rest
      return (e, ⟨rest, by simp only [List.length_cons]; omega⟩)
    | .word _ | .not | .check _ => readChoice (t :: rest)
    | _ => .error (.unexpected (.token .call) t)
termination_by (tokens.length, 3)

/-- A condition, what is yielded if it holds, and what otherwise. -/
def readChoice (tokens : List Token) : Reading Expression tokens := do
  let (c, ⟨afterCondition, _⟩) ← readCondition tokens
  let (_, ⟨rest, _⟩) ← expect .question afterCondition
  let (yes, ⟨afterYes, _⟩) ← readValue rest
  let (no, ⟨rest, _⟩) ← readAlternative afterYes
  return (.choice c yes no, ⟨rest, by omega⟩)
termination_by (tokens.length, 2)

/-- What is yielded otherwise; a colon belongs to the innermost choice before it. -/
def readAlternative (tokens : List Token) :
    Except ParseError (Option Expression × { rest : List Token // rest.length ≤ tokens.length }) :=
  match tokens with
  | ⟨.colon, _⟩ :: rest => do
    let (e, ⟨rest, _⟩) ← readValue rest
    return (some e, ⟨rest, by simp only [List.length_cons]; omega⟩)
  | tokens => .ok (none, ⟨tokens, Nat.le_refl _⟩)
termination_by (tokens.length, 0)

/-- Arguments in parentheses. A first argument that cannot be read counts as none, unless a call
inside it has the wrong number of arguments. -/
def readArguments (tokens : List Token) : Reading (List Expression) tokens := do
  let (_, ⟨rest, _⟩) ← expect .openParen tokens
  match readValue rest with
  | .ok (first, ⟨rest, _⟩) =>
    let (more, ⟨rest, _⟩) ← readMoreArguments rest
    return (first :: more, ⟨rest, by omega⟩)
  | .error (.argumentCount name expected found) => .error (.argumentCount name expected found)
  | .error _ =>
    let (_, ⟨rest, _⟩) ← expect .closeParen rest
    return ([], ⟨rest, by omega⟩)
termination_by (tokens.length, 0)

def readMoreArguments (tokens : List Token) : Reading (List Expression) tokens :=
  match tokens with
  | ⟨.comma, _⟩ :: rest => do
    let (next, ⟨rest, _⟩) ← readValue rest
    let (more, ⟨rest, _⟩) ← readMoreArguments rest
    return (next :: more, ⟨rest, by simp only [List.length_cons]; omega⟩)
  | tokens => do
    let (_, rest) ← expect .closeParen tokens
    return ([], rest)
termination_by (tokens.length, 0)

/-- A name or a check, negated or not, and the rest of the chain. -/
def readCondition (tokens : List Token) : Reading Expression tokens :=
  match tokens with
  | ⟨.not, _⟩ :: rest => do
    let (e, ⟨rest, _⟩) ← readAtom true rest
    return (e, ⟨rest, by simp only [List.length_cons]; omega⟩)
  | tokens => readAtom false tokens
termination_by (tokens.length, 1)

def readAtom (negated : Bool) (tokens : List Token) : Reading Expression tokens :=
  match tokens with
  | [] => .error .endOfInput
  | t :: rest =>
    match t.lexeme with
    | .word name => do
      let (c, ⟨rest, _⟩) ← readChain rest
      return (.existence negated name c, ⟨rest, by simp only [List.length_cons]; omega⟩)
    | .check k => do
      let (arguments, ⟨rest, _⟩) ← readArguments rest
      checkArity k.name k.arity arguments
      let (c, ⟨rest, _⟩) ← readChain rest
      return (.check negated k arguments c, ⟨rest, by simp only [List.length_cons]; omega⟩)
    | _ => .error (.unexpected (.token .word) t)
termination_by (tokens.length, 0)

def readChain (tokens : List Token) :
    Except ParseError (Option (Connective × Expression) ×
      { rest : List Token // rest.length ≤ tokens.length }) :=
  match tokens with
  | ⟨.and, _⟩ :: rest => do
    let (e, ⟨rest, _⟩) ← readCondition rest
    return (some (.and, e), ⟨rest, by simp only [List.length_cons]; omega⟩)
  | ⟨.or, _⟩ :: rest => do
    let (e, ⟨rest, _⟩) ← readCondition rest
    return (some (.or, e), ⟨rest, by simp only [List.length_cons]; omega⟩)
  | tokens => .ok (none, ⟨tokens, Nat.le_refl _⟩)
termination_by (tokens.length, 0)

end

def whole {tokens : List Token} : Reading Expression tokens → Except ParseError Expression
  | .error e => .error e
  | .ok (e, ⟨[], _⟩) => .ok e
  | .ok (_, ⟨t :: _, _⟩) => .error (.unexpected .finish t)

def tokens (t : Text) : Except ParseError (List Token) := (Token.ofText t).mapError .token

/-- Reads an expression; one that yields text is preferred to a condition. When neither can be
read, the error is that of the value, which never stops before that of the condition. -/
def parse (t : Text) : Except ParseError Expression := do
  let ts ← tokens t
  match whole (readValue ts), whole (readCondition ts) with
  | .ok e, _ => .ok e
  | .error _, .ok e => .ok e
  | .error e, .error _ => .error e

def parseCondition (t : Text) : Except ParseError Expression := do
  whole (readCondition (← tokens t))

end Countermand.Expression

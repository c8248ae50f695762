import Mathlib
import Countermand.Expression.Tree

/-! The grammar of expressions, stated on trees: how a tree is written as tokens, and which trees
are meant by what can be written. Chains lean to the right, and a colon belongs to the innermost
choice before it. -/
namespace Countermand

namespace Spread

def spelling : Spread → List Lexeme
  | .plain => []
  | .joined _ => [.ellipsis]

/-- A name is spread with blanks between the items. -/
def IsWritten (spread : Spread) : Prop := spread = .plain ∨ spread = .joined (some " ".toList)

end Spread

namespace Connective

def lexeme : Connective → Lexeme
  | .and => .and
  | .or => .or

end Connective

theorem Operation.arity_pos (op : Operation) : 0 < op.arity := by cases op <;> decide

theorem Check.arity_pos (k : Check) : 0 < k.arity := by cases k <;> decide

namespace Expression

def negation (negated : Bool) : List Lexeme := if negated then [.not] else []

mutual

def spelling : Expression → List Lexeme
  | .access name spread => .dollar :: .word name :: spread.spelling
  | .literal body => [.literal body]
  | .quoted body => [.quoted body]
  | .choice condition yes no =>
    condition.spelling ++ .question :: (yes.spelling ++ alternativeSpelling no)
  | .existence negated name chain => negation negated ++ .word name :: chainSpelling chain
  | .operation op arguments => .operation op :: .openParen :: argumentsSpelling arguments
  | .check negated k arguments chain =>
    negation negated ++
      .check k :: .openParen :: (argumentsSpelling arguments ++ chainSpelling chain)

def alternativeSpelling : Option Expression → List Lexeme
  | none => []
  | some no => .colon :: no.spelling

def chainSpelling : Option (Connective × Expression) → List Lexeme
  | none => []
  | some (connective, right) => connective.lexeme :: right.spelling

/-- Arguments with commas between them, and the closing parenthesis. -/
def argumentsSpelling : List Expression → List Lexeme
  | [] => [.closeParen]
  | first :: more => first.spelling ++ moreSpelling more

def moreSpelling : List Expression → List Lexeme
  | [] => [.closeParen]
  | next :: more => .comma :: (next.spelling ++ moreSpelling more)

end

mutual

/-- A colon behind the expression would belong to a choice at its end. -/
def endsOpen : Expression → Bool
  | .choice _ _ no => alternativeEndsOpen no
  | _ => false

def alternativeEndsOpen : Option Expression → Bool
  | none => true
  | some no => no.endsOpen

end

/-- The trees of expressions that can be written. -/
inductive WellFormed : Expression → Prop
  | access {name : Text} {spread : Spread} (written : spread.IsWritten) :
    WellFormed (.access name spread)
  | literal {body : Text} : WellFormed (.literal body)
  | quoted {body : Text} : WellFormed (.quoted body)
  | choice {condition yes : Expression} {no : Option Expression}
    (conditional : condition.kind = .conditional) (wellFormed : condition.WellFormed)
    (yes_value : yes.kind = .value) (yes_wellFormed : yes.WellFormed)
    (no_value : ∀ e ∈ no, e.kind = .value) (no_wellFormed : ∀ e ∈ no, e.WellFormed)
    (innermost : no ≠ none → yes.endsOpen = false) : WellFormed (.choice condition yes no)
  | existence {negated : Bool} {name : Text} {chain : Option (Connective × Expression)}
    (conditional : ∀ link ∈ chain, link.2.kind = .conditional)
    (wellFormed : ∀ link ∈ chain, link.2.WellFormed) : WellFormed (.existence negated name chain)
  | operation {op : Operation} {arguments : List Expression}
    (arity : arguments.length = op.arity) (values : ∀ e ∈ arguments, e.kind = .value)
    (wellFormed : ∀ e ∈ arguments, e.WellFormed) : WellFormed (.operation op arguments)
  | check {negated : Bool} {k : Check} {arguments : List Expression}
    {chain : Option (Connective × Expression)}
    (arity : arguments.length = k.arity) (values : ∀ e ∈ arguments, e.kind = .value)
    (wellFormed : ∀ e ∈ arguments, e.WellFormed)
    (conditional : ∀ link ∈ chain, link.2.kind = .conditional)
    (chain_wellFormed : ∀ link ∈ chain, link.2.WellFormed) :
    WellFormed (.check negated k arguments chain)

theorem endsOpen_of_conditional {e : Expression} (h : e.kind = .conditional) :
    e.endsOpen = false := by
  cases e <;> simp_all [kind, endsOpen]

inductive IsPart : Expression → Expression → Prop
  | condition {condition yes : Expression} {no : Option Expression} :
    IsPart condition (.choice condition yes no)
  | yes {condition yes : Expression} {no : Option Expression} :
    IsPart yes (.choice condition yes no)
  | no {condition yes no : Expression} : IsPart no (.choice condition yes (some no))
  | chain {negated : Bool} {name : Text} {connective : Connective} {right : Expression} :
    IsPart right (.existence negated name (some (connective, right)))
  | argument {op : Operation} {arguments : List Expression} {e : Expression}
    (mem : e ∈ arguments) : IsPart e (.operation op arguments)
  | checked {negated : Bool} {k : Check} {arguments : List Expression}
    {chain : Option (Connective × Expression)} {e : Expression} (mem : e ∈ arguments) :
    IsPart e (.check negated k arguments chain)
  | checkChain {negated : Bool} {k : Check} {arguments : List Expression}
    {connective : Connective} {right : Expression} :
    IsPart right (.check negated k arguments (some (connective, right)))

theorem IsPart.sizeOf_lt {part e : Expression} (h : part.IsPart e) : sizeOf part < sizeOf e := by
  cases h with
  | argument mem =>
    have := List.sizeOf_lt_of_mem mem
    simp only [operation.sizeOf_spec]
    omega
  | checked mem =>
    have := List.sizeOf_lt_of_mem mem
    simp only [check.sizeOf_spec]
    omega
  | _ => simp; omega

/-- What passes from the parts of an expression to itself holds of all expressions. -/
theorem induction_on_parts {P : Expression → Prop}
    (step : ∀ e, (∀ part, part.IsPart e → P part) → P e) (e : Expression) : P e :=
  step e fun part _ => induction_on_parts step part
termination_by sizeOf e
decreasing_by exact IsPart.sizeOf_lt (by assumption)

theorem mem_moreSpelling {e : Expression} {arguments : List Expression} (h : e ∈ arguments)
    {x : Lexeme} (hx : x ∈ e.spelling) : x ∈ moreSpelling arguments := by
  induction arguments with
  | nil => simp at h
  | cons next more ih =>
    rcases List.mem_cons.mp h with rfl | h
    · simp [moreSpelling, hx]
    · simp [moreSpelling, ih h]

theorem mem_argumentsSpelling {e : Expression} {arguments : List Expression} (h : e ∈ arguments)
    {x : Lexeme} (hx : x ∈ e.spelling) : x ∈ argumentsSpelling arguments := by
  cases arguments with
  | nil => simp at h
  | cons first more =>
    rcases List.mem_cons.mp h with rfl | h
    · simp [argumentsSpelling, hx]
    · simp [argumentsSpelling, mem_moreSpelling h hx]

theorem IsPart.mem_spelling {part e : Expression} (h : part.IsPart e) {x : Lexeme}
    (hx : x ∈ part.spelling) : x ∈ e.spelling := by
  cases h with
  | argument mem => simp [spelling, mem_argumentsSpelling mem hx]
  | checked mem => simp [spelling, mem_argumentsSpelling mem hx]
  | _ => simp [spelling, alternativeSpelling, chainSpelling, hx]

theorem IsPart.wellFormed {part e : Expression} (h : part.IsPart e) (hw : e.WellFormed) :
    part.WellFormed := by
  cases h with
  | condition =>
    cases hw with
    | choice _ h => exact h
  | yes =>
    cases hw with
    | choice _ _ _ h => exact h
  | no =>
    cases hw with
    | choice _ _ _ _ _ h => exact h _ rfl
  | chain =>
    cases hw with
    | existence _ h => exact h _ rfl
  | argument mem =>
    cases hw with
    | operation _ _ h => exact h _ mem
  | checked mem =>
    cases hw with
    | check _ _ h => exact h _ mem
  | checkChain =>
    cases hw with
    | check _ _ _ _ h => exact h _ rfl

end Expression
end Countermand

import Countermand.Expression.Reading
import Countermand.Expression.Evaluation
import Countermand.Template.Fragment

/-! Expanding templates. Each fragment is read and evaluated; the lists among the results repeat
the text around them, item by item. -/
namespace Countermand.Template

inductive Piece
  | text (body : Text)
  | list (items : List Text)
  deriving DecidableEq, Repr

namespace Piece

def column (width : Nat) : Piece → List Text
  | .text body => List.replicate width body
  | .list items => items

def width? : Piece → Option Nat
  | .text _ => none
  | .list items => some items.length

end Piece

def rows (width : Nat) (pieces : List Piece) : List Text :=
  pieces.foldr (fun piece commands => List.zipWith (· ++ ·) (piece.column width) commands)
    (List.replicate width [])

/-- Repeats the text for the items of the lists, which must be equally many. -/
def broadcast (pieces : List Piece) : Except EvaluationError (List Text) :=
  match pieces.filterMap Piece.width? with
  | [] => .ok (rows 1 pieces)
  | width :: widths =>
    match widths.find? (· ≠ width) with
    | some found => .error (.unevenLists width found)
    | none => .ok (rows width pieces)

/-- A lone command stays as it is; others are joined if there is a separator. -/
def gather (separator : Option Text) : List Text → Expanded
  | [command] => .single command
  | commands =>
    match separator with
    | some s => .single (s.intercalate commands)
    | none => .many commands

section
variable (host : Host) (b : Bindings) (nested : Text → Except ExpansionError Expanded)

/-- The piece of one fragment; a condition contributes nothing. -/
def fragmentPiece (fragment : Text) : Except ExpansionError (Option Piece) := do
  let fragment := Text.trim fragment
  let e ← (Expression.parse fragment).mapError (.unreadable fragment)
  match e.kind with
  | .conditional => return none
  | .value =>
    match ← e.evaluateWith host b nested with
    | .text body => return some (.text body)
    | .list items => return some (.list items)
    | .truth holds => return some (.text (toString holds).toList)

def pieces : List Segment → Except ExpansionError (List Piece)
  | [] => .ok []
  | .literal text :: rest => do
    return .text text :: (← pieces rest)
  | .fragment fragment :: rest => do
    let piece ← fragmentPiece host b nested fragment
    return piece.toList ++ (← pieces rest)

/-- Expands a template, given how the strings inside its fragments expand. -/
def expandWith (m : Markers) (separator : Option Text) (template : Text) :
    Except ExpansionError Expanded :=
  match Segment.ofTemplate m template with
  | none => .error (.unbalanced m.opening template)
  | some segments => do
    let ps ← pieces host b nested segments
    let commands ← (broadcast ps).mapError .evaluation
    return gather separator commands

end

/-- The expansion of a string inside a fragment. A string is shorter than the template around it,
so its length bounds how deep strings can stand in it, and the empty string expands to itself. -/
def expandString (host : Host) (b : Bindings) : Nat → Text → Except ExpansionError Expanded
  | 0, _ => .ok (.single [])
  | depth + 1, body => expandWith host b (expandString host b depth) .backquote none body

def expand (host : Host) (b : Bindings) (m : Markers) (separator : Option Text) (template : Text) :
    Except ExpansionError Expanded :=
  expandWith host b (expandString host b template.length) m separator template

end Countermand.Template

namespace Countermand

def Expression.evaluate (host : Host) (b : Bindings) (e : Expression) :
    Except ExpansionError Evaluated :=
  e.evaluateWith host b fun body => Template.expandString host b body.length body

end Countermand

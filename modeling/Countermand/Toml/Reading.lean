import Countermand.Toml.String
import Countermand.Toml.Number
import Countermand.Toml.Table

/-! Reading TOML documents. Values nest up to a fixed depth, and a key has as many parts at most. -/
namespace Countermand.Toml

/-- Values that nest this deep are refused, and so are keys with this many parts. -/
def depthLimit : Nat := 80

def readScalar (t : Text) : Front Value t :=
  match readString t, readKeyword "true".toList t, readKeyword "false".toList t with
  | some (body, rest), _, _ => some (.string body, rest)
  | _, some rest, _ => some (.boolean true, rest)
  | _, _, some rest => some (.boolean false, rest)
  | none, none, none =>
    if startsDate t then (readDate t).map (.date, ·) else (readNumber t).map (.number, ·)

def readAssigned (t : Text) : Front (List Text) t := do
  let (key, afterKey) ← readKey t
  let (_, afterEquals) ← readSymbol '=' afterKey.1
  let start := afterEquals.widen (skipSpaces afterEquals.1)
  return (key, afterKey.shorten start)

mutual

def readValue (depth : Nat) (t : Text) : Front Value t :=
  match t with
  | [] => none
  | '[' :: items =>
    if depth + 1 < depthLimit then do
      let (vs, rest) ← readItems (depth + 1) items
      return (.array vs, (Shorter.tail '[' items).shorten rest)
    else none
  | '\x7b' :: body =>
    if depth + 1 < depthLimit then do
      let start := (Shorter.tail '\x7b' body).widen (skipSpaces body)
      match readSymbol '\x7d' start.1 with
      | some (_, rest) => return (.table [], start.shorten rest)
      | none =>
        let (pairs, rest) ← readPairs (depth + 1) start.1
        let entries ← inlineTable pairs
        return (.table entries, start.shorten rest)
    else none
  | t => readScalar t
termination_by 2 * t.length
decreasing_by
  · exact Shorter.double_lt (Shorter.tail _ _)
  · exact Shorter.double_lt _

/-- The items of an array and its closing bracket; a comma may stand after the last item. -/
def readItems (depth : Nat) (t : Text) : Front (List Value) t := do
  let start := skipLines t
  match readSymbol ']' start.1 with
  | some (_, rest) => return ([], start.shorten rest)
  | none =>
    let (v, afterValue) ← readValue depth start.1
    let ending := start.shorten (afterValue.widen (skipLines afterValue.1))
    match readSymbol ',' ending.1 with
    | some (_, afterComma) =>
      let next := ending.shorten afterComma
      let (vs, rest) ← readItems depth next.1
      return (v :: vs, next.shorten rest)
    | none =>
      let (_, rest) ← readSymbol ']' ending.1
      return ([v], ending.shorten rest)
termination_by 2 * t.length + 1
decreasing_by
  · exact Remainder.double_lt _
  · exact Nat.lt_succ_of_lt (Shorter.double_lt _)

def readPairs (depth : Nat) (t : Text) : Front (List (List Text × Value)) t := do
  let (key, start) ← readAssigned t
  let (v, afterValue) ← readValue depth start.1
  let ending := start.shorten (afterValue.widen (skipSpaces afterValue.1))
  if depthLimit ≤ key.length then none
  else
    match readSymbol ',' ending.1 with
    | some (_, afterComma) =>
      let next := ending.shorten afterComma
      let (pairs, rest) ← readPairs depth next.1
      return ((key, v) :: pairs, next.shorten rest)
    | none =>
      let (_, rest) ← readSymbol '\x7d' ending.1
      return ([(key, v)], ending.shorten rest)
termination_by 2 * t.length + 1
decreasing_by
  · exact Remainder.double_lt (Shorter.remainder _)
  · exact Nat.lt_succ_of_lt (Shorter.double_lt _)

end

def readAssignment (t : Text) : Front Statement t := do
  let (key, start) ← readAssigned t
  let (v, afterValue) ← readValue 0 start.1
  let rest ← finishLine afterValue.1
  if depthLimit ≤ key.length then none
  else return (.assign key v, start.shorten (afterValue.widen rest))

def readHeader (t : Text) : Front Statement t := do
  let bracket := readSymbol '[' t
  let start : Remainder t := match bracket with
    | some (_, rest) => rest.remainder
    | none => .all t
  let (path, afterPath) ← readKey start.1
  let (_, closed) ← readSymbol ']' afterPath.1
  let header := start.shorten (afterPath.shorten closed)
  let (statement, ending) ←
    if bracket.isSome then
      (readSymbol ']' header.1).map fun (_, rest) => (Statement.openItem path, header.shorten rest)
    else some (.openTable path, header)
  let rest ← finishLine ending.1
  if depthLimit ≤ path.length then none else return (statement, ending.widen rest)

def readStatement (t : Text) : Front Statement t :=
  match readSymbol '[' t with
  | some (_, afterBracket) =>
    (readHeader afterBracket.1).map fun (s, rest) => (s, afterBracket.shorten rest)
  | none => readAssignment t

def readStatements (t : Text) : Option (List Statement) :=
  let ⟨afterSpaces, _⟩ := skipSpaces t
  let ⟨start, _⟩ := skipComment afterSpaces
  if start.isEmpty then some []
  else
    match readNewline start with
    | some (_, ⟨rest, _⟩) => readStatements rest
    | none =>
      match readStatement start with
      | some (statement, ⟨rest, _⟩) => (readStatements rest).map (statement :: ·)
      | none => none
termination_by t.length

/-- Reads a document; a byte order mark may stand in front. -/
def read (t : Text) : Option Table :=
  let t := match t with
    | '\uFEFF' :: rest => rest
    | t => t
  (readStatements t).bind Statement.table

end Countermand.Toml

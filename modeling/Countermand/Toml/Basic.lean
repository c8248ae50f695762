import Countermand.Text

/-! The values of a TOML document. Numbers and dates are told apart from other values but not
kept, since nothing here asks for one. -/
namespace Countermand.Toml

inductive Value
  | string (body : Text)
  | boolean (holds : Bool)
  | number
  | date
  | array (items : List Value)
  | table (entries : List (Text × Value))
  deriving Repr

/-- Keys are not repeated in a table. -/
abbrev Table := List (Text × Value)

/-- What is left of a text when something has been read. -/
abbrev Shorter (t : Text) := { rest : Text // rest.length < t.length }

/-- What is left of a text when nothing may have been read. -/
abbrev Remainder (t : Text) := { rest : Text // rest.length ≤ t.length }

/-- The meaning of the front of a text, and the shorter text that follows it. -/
abbrev Front (α : Type) (t : Text) := Option (α × Shorter t)

namespace Remainder

def all (t : Text) : Remainder t := ⟨t, Nat.le_refl _⟩

def drop (n : Nat) (t : Text) : Remainder t := ⟨t.drop n, by simp⟩

def widen {t : Text} (r : Remainder t) (rest : Remainder r.1) : Remainder t :=
  ⟨rest.1, Nat.le_trans rest.2 r.2⟩

def shorten {t : Text} (r : Remainder t) (rest : Shorter r.1) : Shorter t :=
  ⟨rest.1, Nat.lt_of_lt_of_le rest.2 r.2⟩

theorem double_lt {t : Text} (r : Remainder t) : 2 * r.1.length < 2 * t.length + 1 := by
  have := r.2
  omega

end Remainder

namespace Shorter

def tail (c : Char) (rest : Text) : Shorter (c :: rest) := ⟨rest, Nat.lt_succ_self _⟩

def remainder {t : Text} (r : Shorter t) : Remainder t := ⟨r.1, Nat.le_of_lt r.2⟩

def widen {t : Text} (r : Shorter t) (rest : Remainder r.1) : Shorter t :=
  ⟨rest.1, Nat.lt_of_le_of_lt rest.2 r.2⟩

def shorten {t : Text} (r : Shorter t) (rest : Shorter r.1) : Shorter t :=
  r.widen rest.remainder

theorem length_lt {t : Text} (r : Shorter t) : r.1.length < t.length := r.2

theorem double_lt {t : Text} (r : Shorter t) : 2 * r.1.length + 1 < 2 * t.length := by
  have := r.2
  omega

end Shorter

def isSpace (c : Char) : Bool := c == ' ' || c == '\t'

def skipWhile (p : Char → Bool) (t : Text) : Remainder t :=
  ⟨t.dropWhile p, (List.dropWhile_suffix p).length_le⟩

def skipSpaces (t : Text) : Remainder t := skipWhile isSpace t

/-- Characters outside ASCII may stand in comments and strings. -/
def isForeign (c : Char) : Bool := 0x80 ≤ c.toNat

def isPrintable (c : Char) : Bool :=
  c == '\t' || (0x20 ≤ c.toNat && c.toNat ≤ 0x7E) || isForeign c

def readSymbol (c : Char) (t : Text) : Front Unit t :=
  match t with
  | [] => none
  | d :: rest => if d = c then some ((), .tail d rest) else none

def readWord (word t : Text) : Option (Remainder t) :=
  match word with
  | [] => some (.all t)
  | c :: cs => do
    let (_, after) ← readSymbol c t
    return after.remainder.widen (← readWord cs after.1)

/-- What follows a word that is not empty, if the text starts with it. -/
def readKeyword (word t : Text) : Option (Shorter t) :=
  match word with
  | [] => none
  | c :: cs => do
    let (_, after) ← readSymbol c t
    return after.widen (← readWord cs after.1)

/-- A line ends with a line feed, which may come after a carriage return. -/
def readNewline (t : Text) : Front Unit t :=
  match t with
  | '\n' :: rest => some ((), .tail '\n' rest)
  | '\r' :: '\n' :: rest => some ((), (Shorter.tail '\r' ('\n' :: rest)).shorten (.tail '\n' rest))
  | _ => none

def skipComment (t : Text) : Remainder t :=
  match t with
  | '#' :: rest => (Shorter.tail '#' rest).remainder.widen (skipWhile isPrintable rest)
  | t => .all t

/-- The end of a line, with a comment before it; the end of the text also ends a line. -/
def finishLine (t : Text) : Option (Remainder t) :=
  let afterSpaces := skipSpaces t
  let ending := afterSpaces.widen (skipComment afterSpaces.1)
  if ending.1.isEmpty then some ending
  else (readNewline ending.1).map fun (_, rest) => ending.widen rest.remainder

def skipLines (t : Text) : Remainder t :=
  let afterSpaces := skipSpaces t
  let ending := afterSpaces.widen (skipComment afterSpaces.1)
  match readNewline ending.1 with
  | some (_, afterLine) =>
    let next := ending.shorten afterLine
    next.remainder.widen (skipLines next.1)
  | none => afterSpaces
termination_by t.length
decreasing_by exact Shorter.length_lt _

end Countermand.Toml

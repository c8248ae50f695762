import Countermand.Toml.Basic

/-! Strings and keys of TOML. Basic strings stand in double quotes and have escapes, literal ones
stand in single quotes and have none; three quotes open a string of several lines. -/
namespace Countermand.Toml

def hexValue? (c : Char) : Option Nat :=
  if c.isDigit then some (c.toNat - '0'.toNat)
  else if 'a' ≤ c ∧ c ≤ 'f' then some (c.toNat - 'a'.toNat + 10)
  else if 'A' ≤ c ∧ c ≤ 'F' then some (c.toNat - 'A'.toNat + 10)
  else none

def hexCharacter? (digits : Nat) (t : Text) : Option Char := do
  let values ← (t.take digits).mapM hexValue?
  let n := values.foldl (fun n d => 16 * n + d) 0
  if values.length = digits ∧ n.isValidChar then return Char.ofNat n else none

/-- The character that is escaped after a backslash, and how many characters spell it. -/
def escape? : Text → Option (Char × Nat)
  | 'b' :: _ => some ('\x08', 1)
  | 't' :: _ => some ('\t', 1)
  | 'n' :: _ => some ('\n', 1)
  | 'f' :: _ => some ('\x0c', 1)
  | 'r' :: _ => some ('\r', 1)
  | '"' :: _ => some ('"', 1)
  | '\\' :: _ => some ('\\', 1)
  | 'u' :: t => (hexCharacter? 4 t).map (·, 5)
  | 'U' :: t => (hexCharacter? 8 t).map (·, 9)
  | _ => none

def skipBlankLines (t : Text) : Remainder t :=
  let afterSpaces := skipSpaces t
  match readNewline afterSpaces.1 with
  | some (_, afterLine) =>
    let next := afterSpaces.shorten afterLine
    next.remainder.widen (skipBlankLines next.1)
  | none => afterSpaces
termination_by t.length
decreasing_by exact Shorter.length_lt _

/-- A backslash at the end of a line hides the blanks and line ends that follow. -/
def hiddenLines? (t : Text) : Option (Remainder t) :=
  let afterSpaces := skipSpaces t
  (readNewline afterSpaces.1).map fun (_, afterLine) =>
    (afterSpaces.shorten afterLine).remainder.widen (skipBlankLines afterLine.1)

def readBasic (t : Text) : Front Text t :=
  match t with
  | [] => none
  | '"' :: rest => some ([], .tail '"' rest)
  | '\\' :: after => do
    let (c, used) ← escape? after
    let next := (Shorter.tail '\\' after).widen (.drop used after)
    let (body, rest) ← readBasic next.1
    return (c :: body, next.shorten rest)
  | c :: after =>
    if isPrintable c then do
      let (body, rest) ← readBasic after
      return (c :: body, (Shorter.tail c after).shorten rest)
    else none
termination_by t.length
decreasing_by
  · exact Shorter.length_lt _
  · exact Nat.lt_succ_self _

def readLiteral (t : Text) : Front Text t :=
  match t with
  | [] => none
  | c :: after =>
    if c = '\x27' then some ([], .tail c after)
    else if isPrintable c then do
      let (body, rest) ← readLiteral after
      return (c :: body, (Shorter.tail c after).shorten rest)
    else none

/-- Three quotes close a string of several lines; up to two more before them belong to it. -/
def readClosing (quote : Char) (t : Text) : Front Text t :=
  let quotes := (t.takeWhile (· == quote)).length
  if h : 3 ≤ quotes then
    let inside := min (quotes - 3) 2
    some (List.replicate inside quote, ⟨t.drop (inside + 3), by
      have := (List.takeWhile_prefix (l := t) (· == quote)).length_le
      simp only [List.length_drop]; omega⟩)
  else none

/-- The rest of a string of several lines; escapes count only in a basic one. -/
def readLong (quote : Char) (escapes : Bool) (t : Text) : Front Text t :=
  match readClosing quote t with
  | some closed => some closed
  | none =>
    match t with
    | [] => none
    | c :: after =>
      if escapes && c == '\\' then
        match hiddenLines? after with
        | some shown => do
          let next := (Shorter.tail c after).widen shown
          let (body, rest) ← readLong quote escapes next.1
          return (body, next.shorten rest)
        | none => do
          let (escaped, used) ← escape? after
          let next := (Shorter.tail c after).widen (.drop used after)
          let (body, rest) ← readLong quote escapes next.1
          return (escaped :: body, next.shorten rest)
      else
        match readNewline (c :: after) with
        | some (_, next) => do
          let (body, rest) ← readLong quote escapes next.1
          return ('\n' :: body, next.shorten rest)
        | none =>
          if isPrintable c then do
            let (body, rest) ← readLong quote escapes after
            return (c :: body, (Shorter.tail c after).shorten rest)
          else none
termination_by t.length
decreasing_by
  · exact Shorter.length_lt _
  · exact Shorter.length_lt _
  · exact Shorter.length_lt _
  · exact Nat.lt_succ_self _

def readLongBody (quote : Char) (escapes : Bool) (t : Text) : Front Text t :=
  match readNewline t with
  | some (_, start) =>
    (readLong quote escapes start.1).map fun (body, rest) => (body, start.shorten rest)
  | none => readLong quote escapes t

def readShortString (t : Text) : Front Text t :=
  match t with
  | [] => none
  | c :: after =>
    if c = '"' then
      (readBasic after).map fun (body, rest) => (body, (Shorter.tail c after).shorten rest)
    else if c = '\x27' then
      (readLiteral after).map fun (body, rest) => (body, (Shorter.tail c after).shorten rest)
    else none

def readString (t : Text) : Front Text t :=
  match t with
  | a :: b :: c :: after =>
    if a = b ∧ b = c ∧ (a = '"' ∨ a = '\x27') then
      let opened := (Shorter.tail a (b :: c :: after)).widen (.drop 2 (b :: c :: after))
      (readLongBody a (a == '"') opened.1).map fun (body, rest) => (body, opened.shorten rest)
    else readShortString (a :: b :: c :: after)
  | t => readShortString t

def isBareCharacter (c : Char) : Bool := c.isAlphanum || c == '_' || c == '-'

def readKeyPart (t : Text) : Front Text t :=
  match t with
  | [] => none
  | c :: after =>
    if isBareCharacter c then
      some (c :: after.takeWhile isBareCharacter,
        (Shorter.tail c after).widen (skipWhile isBareCharacter after))
    else readShortString (c :: after)

/-- A key with its parts between dots, and the spaces around them. -/
def readKey (t : Text) : Front (List Text) t := do
  let start := skipSpaces t
  let (part, afterPart) ← readKeyPart start.1
  let ending := start.shorten (afterPart.widen (skipSpaces afterPart.1))
  match readSymbol '.' ending.1 with
  | some (_, afterDot) =>
    let next := ending.shorten afterDot
    let (parts, rest) ← readKey next.1
    return (part :: parts, next.shorten rest)
  | none => return ([part], ending)
termination_by t.length
decreasing_by exact Shorter.length_lt _

end Countermand.Toml

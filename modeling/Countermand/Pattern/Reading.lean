import Countermand.Pattern.Basic

/-! Reading the notation of patterns: words, then bracketed arguments and groups of arguments.
Brackets of an argument are `[ ]` for an optional and `< >` for a required one; inside stand a
value specification, the spellings of an option and a delimiter, each with its colon. -/
namespace Countermand

def PatternFault.on {α : Type} (fault : PatternFault) (fragment : Text) : Except PatternError α :=
  .error ⟨fault, fragment⟩

/-- The variable and the quantifier that are given for a value. -/
structure Specification where
  identifier : Option Text
  quantifier : Option Quantifier
  deriving DecidableEq, Repr

namespace Specification

def isEmpty (s : Specification) : Bool := s.identifier.isNone && s.quantifier.isNone

def isIdentifierCharacter (c : Char) : Bool := c.isUpper || c.isDigit || c == '_'

/-- An identifier starts with a capital letter. -/
def readIdentifier : Text → Option Text × Text
  | [] => (none, [])
  | c :: cs =>
    if c.isUpper then
      (some (c :: cs.takeWhile isIdentifierCharacter), cs.dropWhile isIdentifierCharacter)
    else (none, c :: cs)

def readExactly (t count rest : Text) : Except PatternError (Option Quantifier × Text) :=
  match Text.readCount? count with
  | some n => .ok (some (.exactly n), rest)
  | none => PatternFault.quantifier.on t

def readQuantifier (t : Text) : Except PatternError (Option Quantifier × Text) :=
  match t with
  | '.' :: '.' :: '.' :: rest => .ok (some .atLeastOne, rest)
  | '?' :: rest => .ok (some .flag, rest)
  | '*' :: rest => .ok (some .any, rest)
  | '\x7b' :: rest =>
    match Text.cutAt ['\x7d'] rest with
    | some (count, rest) => readExactly t count rest
    | none => PatternFault.quantifier.on t
  | c :: _ =>
    if c.isDigit && c != '0' then
      readExactly t (t.takeWhile Char.isDigit) (t.dropWhile Char.isDigit)
    else .ok (none, t)
  | [] => .ok (none, [])

def read (t : Text) : Except PatternError (Specification × Text) := do
  let (identifier, rest) := readIdentifier t
  let (quantifier, rest) ← readQuantifier rest
  return (⟨identifier, quantifier⟩, rest)

end Specification

namespace Argument

/-- A dash with one letter or digit, or two dashes with words joined by dashes, the first word
having at least two characters. -/
def isSpelling : Text → Bool
  | '-' :: '-' :: long =>
    match Text.splitOn '-' long with
    | [] => false
    | first :: words => 2 ≤ first.length && Text.isAlphanumeric first &&
        words.all fun w => !w.isEmpty && Text.isAlphanumeric w
  | ['-', c] => c.isAlphanum
  | _ => false

def longest? : List Text → Option Text
  | [] => none
  | t :: ts =>
    match longest? ts with
    | none => some t
    | some best => if best.length ≤ t.length then some t else some best

/-- The variable of an option without an identifier: `--no-clobber` gives `NO_CLOBBER`. -/
def derivedName (spellings : List Text) : Option Text :=
  (longest? spellings).map fun t =>
    (t.dropWhile (· == '-')).map fun c => if c = '-' then '_' else c.toUpper

/-- Takes a delimiter between two colons off the end. -/
def splitDelimiter (body : Text) : Except PatternError (Text × Option Text) :=
  match (Text.before? [':'] (Text.trimEnd body)).bind (Text.cutAtLast ':') with
  | none => .ok (body, none)
  | some (_, []) => PatternFault.emptyDelimiter.on body
  | some (head, delimiter) => .ok (head, some delimiter)

/-- A spelling with the value specification attached to it: `--dir=DIR` or `--color[=WHEN]`. -/
def splitSpelling (token : Text) : Except PatternError (Text × Option Specification) :=
  match Text.cutAt "[=".toList token with
  | some (name, rest) =>
    match Text.before? [']'] rest with
    | none => PatternFault.unclosedValue.on token
    | some inner => do
      let (spec, rest) ← Specification.read inner
      if rest ≠ [] ∨ spec.quantifier.isSome then PatternFault.valueQuantifier.on token
      else return (name, some ⟨spec.identifier, some .optional⟩)
  | none =>
    match Text.cutAt ['='] token with
    | some (name, rest) => do
      let (spec, rest) ← Specification.read rest
      if rest ≠ [] then PatternFault.valueSpecification.on token
      else return (name, some spec)
    | none => .ok (token, none)

/-- The spellings, and the specification found so far or attached to one of them. -/
def readSpellings (found : Option Specification) :
    List Text → Except PatternError (List Text × Option Specification)
  | [] => .ok ([], found)
  | token :: tokens => do
    let (name, attached) ← splitSpelling token
    if !isSpelling name then PatternFault.spelling.on name
    else if attached.isSome && found.isSome then PatternFault.conflict.on token
    else
      let (names, found) ← readSpellings (found <|> attached) tokens
      return (name :: names, found)

/-- Whether the brackets around an argument make it a required one. -/
def readBrackets (content : Text) : Except PatternError Bool :=
  match content.head?, content.getLast? with
  | some '<', some '>' => .ok true
  | some '[', some ']' => .ok false
  | some '<', some ']' => (PatternFault.mixedBrackets '<' ']').on content
  | some '[', some '>' => (PatternFault.mixedBrackets '[' '>').on content
  | _, _ => PatternFault.argumentBrackets.on content

/-- The specification in front, if one is given, and the part with the spellings. -/
def readHead (content body : Text) : Except PatternError (Option Specification × Text) := do
  let (spec, rest) ← Specification.read body
  match Text.after? [':'] rest with
  | some names => return (some spec, names)
  | none =>
    if spec.isEmpty then return (none, rest)
    else if Text.trim rest = [] then return (some spec, [])
    else PatternFault.missingColon.on content

def separatesSpellings (c : Char) : Bool := Text.isBlank c || c == ',' || c == '|'

def read (t : Text) : Except PatternError Argument := do
  let content := Text.trim t
  let required ← readBrackets content
  let (body, delimiter) ← splitDelimiter content.tail.dropLast
  let (head, names) ← readHead content body
  let (spellings, spec) ← readSpellings head (Text.fields separatesSpellings names)
  let quantifier := (spec.bind Specification.quantifier).getD (.exactly 1)
  let positional := spellings.isEmpty
  if positional && !required then PatternFault.optionalPositional.on content
  else if positional && quantifier = .flag then PatternFault.positionalFlag.on content
  else
    let identifier := spec.bind Specification.identifier
    return ⟨identifier <|> derivedName spellings, quantifier, spellings, positional, required,
      delimiter⟩

def opens (c : Char) : Bool := c == '[' || c == '<'

def closes (c : Char) : Bool := c == ']' || c == '>'

end Argument

namespace Pattern

/-- The bracketed run at the front of a text, its brackets included, and what follows. -/
def enclosed (opens closes : Char → Bool) (depth : Nat) : Text → Option (Text × Text)
  | [] => none
  | c :: cs =>
    if opens c then (enclosed opens closes (depth + 1) cs).map fun (run, rest) => (c :: run, rest)
    else if closes c then
      if depth ≤ 1 then some ([c], cs)
      else (enclosed opens closes (depth - 1) cs).map fun (run, rest) => (c :: run, rest)
    else (enclosed opens closes depth cs).map fun (run, rest) => (c :: run, rest)

theorem append_of_enclosed {opens closes : Char → Bool} {depth : Nat} {t run rest : Text}
    (h : enclosed opens closes depth t = some (run, rest)) : t = run ++ rest ∧ run ≠ [] := by
  induction t generalizing depth run with
  | nil => simp [enclosed] at h
  | cons c cs ih =>
    have step {d : Nat} (h : (enclosed opens closes d cs).map
        (fun (run, rest) => (c :: run, rest)) = some (run, rest)) :
        c :: cs = run ++ rest ∧ run ≠ [] := by
      obtain ⟨⟨a, b⟩, hb, he⟩ := Option.map_eq_some_iff.mp h
      simp only [Prod.mk.injEq] at he
      obtain ⟨rfl, rfl⟩ := he
      simp [← (ih hb).1]
    simp only [enclosed] at h
    split at h
    · exact step h
    · split at h
      · split at h
        · simp only [Option.some.injEq, Prod.mk.injEq] at h
          simp [← h.1, ← h.2]
        · exact step h
      · exact step h

theorem length_lt_of_enclosed {opens closes : Char → Bool} {depth : Nat} {t run rest : Text}
    (h : enclosed opens closes depth t = some (run, rest)) : rest.length < t.length := by
  obtain ⟨ht, hr⟩ := append_of_enclosed h
  have := List.length_pos_iff.mpr hr
  rw [ht, List.length_append]
  omega

theorem length_lt_of_trimStart {t : Text} {c : Char} {cs rest : Text}
    (h : Text.trimStart t = c :: cs) (hr : rest.length < (c :: cs).length) :
    rest.length < t.length := by
  have := Text.trimStart_length_le t
  rw [h] at this
  omega

end Pattern

namespace Group

def readMembers (t : Text) : Except PatternError (List Argument) :=
  match _ht : Text.trimStart t with
  | [] => .ok []
  | c :: cs =>
    if Argument.opens c then
      match _he : Pattern.enclosed Argument.opens Argument.closes 0 (c :: cs) with
      | none => PatternFault.unclosed.on (c :: cs)
      | some (run, rest) => do
        let member ← Argument.read run
        if member.positional then PatternFault.positionalMember.on run
        else if member.required then PatternFault.requiredMember.on run
        else return member :: (← readMembers rest)
    else PatternFault.noMember.on (c :: cs)
termination_by t.length
decreasing_by exact Pattern.length_lt_of_trimStart _ht (Pattern.length_lt_of_enclosed _he)

/-- A group in parentheses; an exclamation mark makes it a required one. -/
def read (t : Text) : Except PatternError Group := do
  let content := Text.trim t
  let (required, bracketed) := match content with
    | '!' :: rest => (true, rest)
    | rest => (false, rest)
  match (Text.after? ['('] bracketed).bind (Text.before? [')']) with
  | none => PatternFault.groupBrackets.on content
  | some inner =>
    let members ← readMembers inner
    if members.isEmpty then PatternFault.emptyGroup.on content
    else return ⟨required, members⟩

end Group

namespace Pattern

inductive Part
  | word (w : Text)
  | argument (a : Argument)
  | group (g : Group)

namespace Part

def word? : Part → Option Text
  | .word w => some w
  | _ => none

def argument? : Part → Option Argument
  | .argument a => some a
  | _ => none

def group? : Part → Option Group
  | .group g => some g
  | _ => none

end Part

def isCommandCharacter (c : Char) : Bool :=
  c.isAlphanum || c == '_' || c == '.' || c == '+' || c == '-'

/-- The parts of a pattern; no word may follow an argument or a group. -/
def readParts (wordsEnded : Bool) (t : Text) : Except PatternError (List Part) :=
  match _ht : Text.trimStart t with
  | [] => .ok []
  | c :: cs =>
    if Argument.opens c then
      match _he : enclosed Argument.opens Argument.closes 0 (c :: cs) with
      | none => PatternFault.unclosed.on (c :: cs)
      | some (run, rest) => do
        let a ← Argument.read run
        return .argument a :: (← readParts true rest)
    else if c = '(' then
      match _he : enclosed (· == '(') (· == ')') 0 (c :: cs) with
      | none => PatternFault.unclosed.on (c :: cs)
      | some (run, rest) => do
        let g ← Group.read run
        return .group g :: (← readParts true rest)
    else if c = '!' ∧ cs.head? = some '(' then
      match _he : enclosed (· == '(') (· == ')') 0 cs with
      | none => PatternFault.unclosed.on cs
      | some (run, rest) => do
        let g ← Group.read (c :: run)
        return .group g :: (← readParts true rest)
    else
      let w := c :: cs.takeWhile (!Text.isBlank ·)
      if wordsEnded then PatternFault.lateCommand.on w
      else if !w.all isCommandCharacter then PatternFault.commandName.on w
      else return .word w :: (← readParts false (cs.dropWhile (!Text.isBlank ·)))
termination_by t.length
decreasing_by
  · exact length_lt_of_trimStart _ht (length_lt_of_enclosed _he)
  · exact length_lt_of_trimStart _ht (length_lt_of_enclosed _he)
  · have := length_lt_of_enclosed _he
    exact length_lt_of_trimStart _ht (by simp only [List.length_cons]; omega)
  · have := (List.dropWhile_suffix (l := cs) (!Text.isBlank ·)).length_le
    exact length_lt_of_trimStart _ht (by simp only [List.length_cons]; omega)

/-- Names the positionals without an identifier by their place among the positionals. -/
def nameOrdinals (place : Nat) : List Argument → List Argument
  | [] => []
  | a :: as =>
    if a.positional then
      let name := a.variableName.getD (Text.ofNat place)
      { a with variableName := some name } :: nameOrdinals (place + 1) as
    else a :: nameOrdinals place as

def read (t : Text) : Except PatternError Pattern := do
  let parts ← readParts false t
  match parts.filterMap Part.word? with
  | [] => PatternFault.noCommand.on t
  | command :: subcommands =>
    return ⟨command, subcommands, nameOrdinals 0 (parts.filterMap Part.argument?),
      parts.filterMap Part.group?⟩

end Pattern
end Countermand

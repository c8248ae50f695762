import Countermand.Text

/-! The words of a command line. Quotes and backslashes protect separators and do not become
part of a word; a `#` in front of a word starts a comment. -/
namespace Countermand.Text

/-- Where the next character of a command line stands. -/
inductive WordPlace
  | between
  | comment
  | bare
  | bareEscape
  | singleQuoted
  | doubleQuoted
  | doubleEscape
  deriving DecidableEq, Repr

namespace WordPlace

def separates (c : Char) : Bool := c == ' ' || c == '\t' || c == '\n'

/-- The characters that lose their meaning after a backslash between double quotes; before others
the backslash stays. -/
def isQuotable (c : Char) : Bool := c == '$' || c == '\x60' || c == '"' || c == '\\'

def inWord : WordPlace → Bool
  | .between | .comment => false
  | _ => true

def within (c : Char) : WordPlace :=
  if c = '"' then .doubleQuoted
  else if c = '\x27' then .singleQuoted
  else if c = '\\' then .bareEscape
  else .bare

def next (c : Char) : WordPlace → WordPlace
  | .between => if separates c then .between else if c = '#' then .comment else within c
  | .comment => if c = '\n' then .between else .comment
  | .bare => if separates c then .between else within c
  | .bareEscape => .bare
  | .singleQuoted => if c = '\x27' then .bare else .singleQuoted
  | .doubleQuoted =>
    if c = '"' then .bare else if c = '\\' then .doubleEscape else .doubleQuoted
  | .doubleEscape => .doubleQuoted

def added (c : Char) : WordPlace → Text
  | .between | .bare => if within c = .bare then [c] else []
  | .comment => []
  | .bareEscape => if c = '\n' then [] else [c]
  | .singleQuoted => if c = '\x27' then [] else [c]
  | .doubleQuoted => if c = '"' ∨ c = '\\' then [] else [c]
  | .doubleEscape => if c = '\n' then [] else if isQuotable c then [c] else ['\\', c]

/-- The words at the end of the text, which may not stand in quotes or after a backslash. -/
def last? : WordPlace → Option (List Text)
  | .between | .comment => some []
  | .bare => some [[]]
  | .bareEscape | .singleQuoted | .doubleQuoted | .doubleEscape => none

end WordPlace

/-- The words from a place on; the first one is what is left of the word there, if there is one. -/
def wordsFrom (place : WordPlace) : Text → Option (List Text)
  | [] => place.last?
  | c :: rest =>
    (wordsFrom (place.next c) rest).map fun words =>
      if (place.next c).inWord then (place.added c).foldr consFirst words
      else if place.inWord then [] :: words
      else words

/-- The words of a command line, unless a quote is left open or a backslash stands last. -/
def words? (t : Text) : Option (List Text) := wordsFrom .between t

end Countermand.Text

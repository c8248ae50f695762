import Countermand.Expression.Builtin

/-! The tokens of expressions. A scan takes the spelling of one token after another from the
text (`spelling_append_of_lexeme?`), skipping blanks, and keeps the column where each starts. -/
namespace Countermand

/-- A token without its place. -/
inductive Lexeme
  | word (name : Text)
  | literal (body : Text)
  | quoted (body : Text)
  | operation (op : Operation)
  | check (k : Check)
  | dollar | ellipsis | comma | openParen | closeParen | and | or | not | question | colon
  deriving DecidableEq, Repr

inductive TokenKind
  | word | literal | quoted | call | dollar | ellipsis | comma | openParen | closeParen
  | and | or | not | question | colon
  deriving DecidableEq, Repr

namespace TokenKind

def text : TokenKind → String
  | .word => "identifier"
  | .literal => "string literal"
  | .quoted => "string expansion"
  | .call => "command"
  | .dollar => "'$'"
  | .ellipsis => "'...'"
  | .comma => "','"
  | .openParen => "'('"
  | .closeParen => "')'"
  | .and => "'&&'"
  | .or => "'||'"
  | .not => "'!'"
  | .question => "'?'"
  | .colon => "':'"

end TokenKind

namespace Lexeme

def kind : Lexeme → TokenKind
  | .word _ => .word
  | .literal _ => .literal
  | .quoted _ => .quoted
  | .operation _ | .check _ => .call
  | .dollar => .dollar
  | .ellipsis => .ellipsis
  | .comma => .comma
  | .openParen => .openParen
  | .closeParen => .closeParen
  | .and => .and
  | .or => .or
  | .not => .not
  | .question => .question
  | .colon => .colon

def body : Lexeme → Text
  | .word name => name
  | .literal body => body
  | .quoted body => body
  | .operation op => op.name
  | .check k => k.name
  | .dollar => "$".toList
  | .ellipsis => "...".toList
  | .comma => ",".toList
  | .openParen => "(".toList
  | .closeParen => ")".toList
  | .and => "&&".toList
  | .or => "||".toList
  | .not => "!".toList
  | .question => "?".toList
  | .colon => ":".toList

def spelling : Lexeme → Text
  | .literal body => '\x27' :: body ++ ['\x27']
  | .quoted body => '"' :: body ++ ['"']
  | x => x.body

/-- A run of letters, digits and underscores, which names a call or is a word. -/
def ofWord (name : Text) : Lexeme :=
  match Operation.ofName? name with
  | some op => .operation op
  | none =>
    match Check.ofName? name with
    | some k => .check k
    | none => .word name

@[simp] theorem body_ofWord (name : Text) : (ofWord name).body = name := by
  unfold ofWord
  split
  · exact Operation.name_of_ofName? (by assumption)
  · split
    · exact Check.name_of_ofName? (by assumption)
    · rfl

@[simp] theorem spelling_ofWord (name : Text) : (ofWord name).spelling = name := by
  have h : (ofWord name).spelling = (ofWord name).body := by
    unfold ofWord
    split
    · rfl
    · split <;> rfl
  rw [h, body_ofWord]

end Lexeme

structure Token where
  lexeme : Lexeme
  column : Nat
  deriving DecidableEq, Repr

/-- A run of characters that starts no token, or a string that is not closed. -/
structure TokenError where
  fragment : Text
  column : Nat
  deriving DecidableEq, Repr

namespace TokenError

def message (e : TokenError) : String :=
  s!"unknown token at col {e.column}: '{String.ofList e.fragment}'"

end TokenError

namespace Token

def isWordCharacter (c : Char) : Bool := c.isAlphanum || c == '_'

/-- The body of a string and what follows its closing quote, the first quote that does not come
after a backslash. -/
def closeQuote (quote : Char) : Char → Text → Option (Text × Text)
  | _, [] => none
  | before, c :: cs =>
    if c = quote ∧ before ≠ '\\' then some ([], cs)
    else (closeQuote quote c cs).map fun (body, rest) => (c :: body, rest)

theorem append_of_closeQuote {quote before : Char} {t body rest : Text}
    (h : closeQuote quote before t = some (body, rest)) : t = body ++ quote :: rest := by
  induction t generalizing before body with
  | nil => simp [closeQuote] at h
  | cons c cs ih =>
    simp only [closeQuote] at h
    split at h
    · rename_i hc
      simp only [Option.some.injEq, Prod.mk.injEq] at h
      simp [← h.1, ← h.2, hc.1]
    · obtain ⟨⟨b, r⟩, hb, he⟩ := Option.map_eq_some_iff.mp h
      simp only [Prod.mk.injEq] at he
      rw [ih (hb.trans (by rw [he.2])), ← he.1, List.cons_append]

/-- The symbol at the front of a text; `&` and `|` come in pairs and dots in threes. -/
def symbol? : Text → Option (Lexeme × Text)
  | '.' :: '.' :: '.' :: rest => some (.ellipsis, rest)
  | '&' :: '&' :: rest => some (.and, rest)
  | '|' :: '|' :: rest => some (.or, rest)
  | '$' :: rest => some (.dollar, rest)
  | '?' :: rest => some (.question, rest)
  | ':' :: rest => some (.colon, rest)
  | '!' :: rest => some (.not, rest)
  | ',' :: rest => some (.comma, rest)
  | '(' :: rest => some (.openParen, rest)
  | ')' :: rest => some (.closeParen, rest)
  | _ => none

theorem spelling_append_of_symbol? {t rest : Text} {x : Lexeme} (h : symbol? t = some (x, rest)) :
    t = x.spelling ++ rest ∧ x.spelling ≠ [] := by
  unfold symbol? at h
  split at h <;> simp only [Option.some.injEq, Prod.mk.injEq, reduceCtorEq] at h
  all_goals (obtain ⟨rfl, rfl⟩ := h; simp [Lexeme.spelling, Lexeme.body])

def lexeme? : Text → Option (Lexeme × Text)
  | [] => none
  | c :: cs =>
    if c = '"' then (closeQuote '"' c cs).map fun (body, rest) => (.quoted body, rest)
    else if c = '\x27' then (closeQuote '\x27' c cs).map fun (body, rest) => (.literal body, rest)
    else if c.isAlphanum then
      some (.ofWord (c :: cs.takeWhile isWordCharacter), cs.dropWhile isWordCharacter)
    else symbol? (c :: cs)

theorem spelling_append_of_lexeme? {t rest : Text} {x : Lexeme} (h : lexeme? t = some (x, rest)) :
    t = x.spelling ++ rest ∧ x.spelling ≠ [] := by
  cases t with
  | nil => simp [lexeme?] at h
  | cons c cs =>
    simp only [lexeme?] at h
    split at h
    · obtain ⟨⟨b, r⟩, hb, he⟩ := Option.map_eq_some_iff.mp h
      simp only [Prod.mk.injEq] at he
      obtain ⟨rfl, rfl⟩ := he
      rename_i hc
      simp [Lexeme.spelling, hc, append_of_closeQuote hb]
    · split at h
      · obtain ⟨⟨b, r⟩, hb, he⟩ := Option.map_eq_some_iff.mp h
        simp only [Prod.mk.injEq] at he
        obtain ⟨rfl, rfl⟩ := he
        rename_i hc
        simp [Lexeme.spelling, hc, append_of_closeQuote hb]
      · split at h
        · simp only [Option.some.injEq, Prod.mk.injEq] at h
          obtain ⟨rfl, rfl⟩ := h
          simp
        · exact spelling_append_of_symbol? h

theorem length_lt_of_lexeme? {t rest : Text} {x : Lexeme} (h : lexeme? t = some (x, rest)) :
    rest.length < t.length := by
  obtain ⟨ht, hx⟩ := spelling_append_of_lexeme? h
  have := List.length_pos_iff.mpr hx
  rw [ht, List.length_append]
  omega

/-- The part of an unreadable text that an error shows: a string to the end of the text, and
anything else up to the next blank. -/
def unreadable : Text → Text
  | [] => []
  | c :: cs => if c = '"' ∨ c = '\x27' then c :: cs else (c :: cs).takeWhile (!Text.isBlank ·)

def scan (column : Nat) (t : Text) : Except TokenError (List Token) :=
  match t with
  | [] => .ok []
  | c :: cs =>
    if Text.isBlank c then scan (column + 1) cs
    else
      match _h : lexeme? (c :: cs) with
      | none => .error ⟨unreadable (c :: cs), column⟩
      | some (x, rest) => do
        let tokens ← scan (column + x.spelling.length) rest
        return ⟨x, column⟩ :: tokens
termination_by t.length
decreasing_by
  · simp
  · exact length_lt_of_lexeme? (by assumption)

/-- The tokens of a text; the first column is 1. -/
def ofText (t : Text) : Except TokenError (List Token) := scan 1 t

end Token
end Countermand

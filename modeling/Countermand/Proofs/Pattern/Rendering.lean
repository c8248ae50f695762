import Countermand.Proofs.Pattern.Accepted

/-! One way to write each pattern: the words, the arguments and the groups, each after a blank. An
argument has its quantifier written out, and its identifier only if it would not get that name
anyway; a value that can only be attached stands behind the first spelling. What is written so is
read again as the same pattern. -/
namespace Countermand
open Results

namespace Quantifier

/-- The sign of a quantifier; a value that can only be attached has none. -/
def sign : Quantifier → Text
  | .flag => ['?']
  | .optional => []
  | .exactly count => '\x7b' :: (Text.ofNat count ++ ['\x7d'])
  | .atLeastOne => "...".toList
  | .any => ['*']

end Quantifier

namespace Argument

def attachFirst (value : Text) : List Text → List Text
  | [] => []
  | spelling :: spellings => (spelling ++ ("[=".toList ++ (value ++ [']']))) :: spellings

def head (identifier : Option Text) (a : Argument) : Text :=
  if a.quantifier = .optional then
    [' '].intercalate (attachFirst (identifier.getD []) a.spellings)
  else
    identifier.getD [] ++ a.quantifier.sign ++
      if a.spellings = [] then [] else ':' :: [' '].intercalate a.spellings

def clause : Option Text → Text
  | none => []
  | some delimiter => ':' :: (delimiter ++ [':'])

def opening (a : Argument) : Char := if a.required then '<' else '['

def closing (a : Argument) : Char := if a.required then '>' else ']'

/-- The variable of an argument without an identifier. -/
def usualName (place : Nat) (a : Argument) : Option Text :=
  if a.positional then some (Text.ofNat place) else derivedName a.spellings

/-- The identifier of an argument that would not get its name without one. -/
def identifier (place : Nat) (a : Argument) : Option Text :=
  if a.variableName = a.usualName place then none else a.variableName

def body (identifier : Option Text) (a : Argument) : Text :=
  a.head identifier ++ clause a.delimiter

def render (place : Nat) (a : Argument) : Text :=
  a.opening :: (a.body (a.identifier place) ++ [a.closing])

end Argument

namespace Group

def render (g : Group) : Text :=
  mark g.required ++ '(' :: ([' '].intercalate (g.members.map (Argument.render 0)) ++ [')'])

end Group

namespace Pattern

def renderArguments (place : Nat) : List Argument → Text
  | [] => []
  | a :: as =>
    ' ' :: (a.render place ++ renderArguments (if a.positional then place + 1 else place) as)

def render (p : Pattern) : Text :=
  p.command ++ (p.subcommands.flatMap (' ' :: ·) ++
    (renderArguments 0 p.arguments ++ p.groups.flatMap (' ' :: Group.render ·)))

end Pattern

namespace Text

theorem digits_ofNat (n : Nat) : ofNat n = Nat.toDigits 10 n := by simp [ofNat]

theorem ofNat_ne_nil (n : Nat) : ofNat n ≠ [] := by
  rw [digits_ofNat, Nat.toDigits_eq_if (by decide)]
  split_ifs <;> simp

theorem isDigit_of_mem_ofNat {n : Nat} {c : Char} (h : c ∈ ofNat n) : c.isDigit = true := by
  rw [digits_ofNat] at h
  exact Nat.isDigit_of_mem_toDigits (by decide) (by decide) h

theorem digitsValue_ofNat (n : Nat) : digitsValue (ofNat n) = n := by
  rw [digits_ofNat]
  exact Nat.ofDigitChars_toDigits (by decide) (by decide)

theorem readCount?_ofNat {n : Nat} (h : n < countLimit) : readCount? (ofNat n) = some n := by
  have hplus : ∀ rest, ofNat n ≠ '+' :: rest := by
    intro rest heq
    have := isDigit_of_mem_ofNat (n := n) (c := '+') (by simp [heq])
    exact absurd this (by decide)
  have hdigits : (ofNat n).all Char.isDigit = true :=
    List.all_eq_true.mpr fun c hc => isDigit_of_mem_ofNat hc
  unfold readCount?
  dsimp only
  split
  · rename_i rest heq
    exact absurd heq (hplus rest)
  · rw [digitsValue_ofNat, if_pos ⟨ofNat_ne_nil n, hdigits, h⟩]

end Text

namespace Specification
variable {identifier : Option Text} {rest : Text}

theorem readIdentifier_written (hi : ∀ x, identifier = some x → IsIdentifier x)
    (hr : ∀ c ∈ rest.head?, isIdentifierCharacter c = false) :
    readIdentifier (identifier.getD [] ++ rest) = (identifier, rest) := by
  cases identifier with
  | none =>
    cases rest with
    | nil => rfl
    | cons c rest =>
      have hc : c.isUpper = false := by
        have := hr c rfl
        simp only [isIdentifierCharacter, Bool.or_eq_false_iff] at this
        exact this.1.1
      simp [readIdentifier, hc]
  | some x =>
    have hx := hi x rfl
    cases x with
    | nil => simp [IsIdentifier] at hx
    | cons c cs =>
      have hc : c.isUpper = true := by simpa using hx.1
      have hcs : ∀ d ∈ cs, isIdentifierCharacter d = true :=
        fun d hd => hx.2 d (List.mem_cons_of_mem c hd)
      simp [readIdentifier, hc, Text.takeWhile_exact hcs hr, Text.dropWhile_exact hcs hr]

theorem readQuantifier_sign {q : Quantifier} (hq : q ≠ .optional)
    (hn : ∀ n, q = .exactly n → n < Text.countLimit) (rest : Text) :
    readQuantifier (q.sign ++ rest) = .ok (some q, rest) := by
  cases q with
  | flag => rfl
  | optional => exact absurd rfl hq
  | exactly n =>
    have hbrace : '\x7d' ∉ Text.ofNat n := by
      intro h
      exact absurd (Text.isDigit_of_mem_ofNat h) (by decide)
    have hcut := Text.cutAt_singleton hbrace rest
    have hread : readQuantifier ('\x7b' :: (Text.ofNat n ++ '\x7d' :: rest)) =
        .ok (some (.exactly n), rest) := by
      rw [readQuantifier, hcut]
      dsimp only
      rw [readExactly, Text.readCount?_ofNat (hn n rfl)]
    simpa [Quantifier.sign] using hread
  | atLeastOne => rfl
  | any => rfl

theorem read_written {q : Quantifier} (hi : ∀ x, identifier = some x → IsIdentifier x)
    (hq : q ≠ .optional) (hn : ∀ n, q = .exactly n → n < Text.countLimit) (rest : Text) :
    read (identifier.getD [] ++ q.sign ++ rest) = .ok (⟨identifier, some q⟩, rest) := by
  have hhead : ∀ c ∈ (q.sign ++ rest).head?, isIdentifierCharacter c = false := by
    cases q with
    | flag => simp [Quantifier.sign]; decide
    | optional => exact absurd rfl hq
    | exactly n => simp [Quantifier.sign]; decide
    | atLeastOne => simp [Quantifier.sign]; decide
    | any => simp [Quantifier.sign]; decide
  rw [List.append_assoc, read, readIdentifier_written hi hhead]
  dsimp only
  rw [readQuantifier_sign hq hn]
  rfl

theorem read_identifier (hi : ∀ x, identifier = some x → IsIdentifier x) :
    read (identifier.getD []) = .ok (⟨identifier, none⟩, []) := by
  cases identifier with
  | none => rfl
  | some x => exact (hi x rfl).read

end Specification

namespace Argument
variable {identifier : Option Text} {spellings : List Text}

theorem not_mem_of_isSpelling {name : Text} (h : isSpelling name = true) {c : Char}
    (hc : Pattern.isCommandCharacter c = false) : c ∉ name := fun hm =>
  Bool.false_ne_true (hc.symm.trans (isCommandCharacter_of_isSpelling h c hm))

theorem splitSpelling_of_isSpelling {name : Text} (h : isSpelling name = true) :
    splitSpelling name = .ok (name, none) := by
  have hbracket : Text.cutAt "[=".toList name = none :=
    Text.cutAt_eq_none (not_mem_of_isSpelling h (by decide)) ['=']
  have hequals : Text.cutAt ['='] name = none :=
    Text.cutAt_eq_none (not_mem_of_isSpelling h (by decide)) []
  rw [splitSpelling, hbracket]
  dsimp only
  rw [hequals]

theorem splitSpelling_attached {name : Text} (h : isSpelling name = true)
    (hi : ∀ x, identifier = some x → Specification.IsIdentifier x) :
    splitSpelling (name ++ ("[=".toList ++ (identifier.getD [] ++ [']']))) =
      .ok (name, some ⟨identifier, some .optional⟩) := by
  have hbracket : Text.cutAt "[=".toList
      (name ++ ("[=".toList ++ (identifier.getD [] ++ [']']))) =
      some (name, identifier.getD [] ++ [']']) :=
    Text.cutAt_append (not_mem_of_isSpelling h (by decide)) ['='] _
  rw [splitSpelling, hbracket]
  dsimp only
  rw [Text.before?_append]
  dsimp only
  rw [Specification.read_identifier hi]
  rfl

theorem readSpellings_cons {token name : Text} {found attached : Option Specification}
    (hs : splitSpelling token = .ok (name, attached)) (hn : isSpelling name = true)
    (hc : attached = none ∨ found = none) (tokens : List Text) :
    readSpellings found (token :: tokens) =
      readSpellings (found <|> attached) tokens >>= fun (names, spec) =>
        pure (name :: names, spec) := by
  have hconflict : (attached.isSome && found.isSome) = false := by
    rcases hc with rfl | rfl <;> simp
  rw [readSpellings, hs, ok_bind]
  simp only [hn, hconflict, Bool.not_true, Bool.false_eq_true, if_false]

theorem readSpellings_of_isSpelling (found : Option Specification)
    (h : ∀ name ∈ spellings, isSpelling name = true) :
    readSpellings found spellings = .ok (spellings, found) := by
  induction spellings with
  | nil => rfl
  | cons name spellings ih =>
    have hname := h name (by simp)
    have hfound : (found <|> none) = found := by cases found <;> rfl
    rw [readSpellings_cons (splitSpelling_of_isSpelling hname) hname (.inl rfl), hfound,
      ih fun other ho => h other (List.mem_cons_of_mem name ho)]
    rfl

theorem readSpellings_attachFirst (hi : ∀ x, identifier = some x → Specification.IsIdentifier x)
    (hne : spellings ≠ []) (h : ∀ name ∈ spellings, isSpelling name = true) :
    readSpellings none (attachFirst (identifier.getD []) spellings) =
      .ok (spellings, some ⟨identifier, some .optional⟩) := by
  cases spellings with
  | nil => exact absurd rfl hne
  | cons name spellings =>
    have hname := h name (by simp)
    have hrest := readSpellings_of_isSpelling (some ⟨identifier, some .optional⟩)
      fun other ho => h other (List.mem_cons_of_mem name ho)
    rw [attachFirst, readSpellings_cons (splitSpelling_attached hname hi) hname (.inr rfl)]
    change readSpellings (some ⟨identifier, some .optional⟩) spellings >>= _ = _
    rw [hrest]
    rfl

theorem separatesSpellings_of_isCommandCharacter {c : Char}
    (h : Pattern.isCommandCharacter c = true) : separatesSpellings c = false := by
  simp [separatesSpellings, Pattern.isBlank_of_isCommandCharacter h,
    Pattern.ne_of_isCommandCharacter h (d := ',') (by decide),
    Pattern.ne_of_isCommandCharacter h (d := '|') (by decide)]

/-- A token between separators, with nothing that ends an argument in it. -/
def IsToken (t : Text) : Prop :=
  t ≠ [] ∧ ∀ c ∈ t, separatesSpellings c = false ∧ c ≠ ':'

theorem isToken_of_isSpelling {name : Text} (h : isSpelling name = true) : IsToken name := by
  refine ⟨?_, fun c hc => ?_⟩
  · rintro rfl
    simp [isSpelling] at h
  · have hword := isCommandCharacter_of_isSpelling h c hc
    exact ⟨separatesSpellings_of_isCommandCharacter hword,
      Pattern.ne_of_isCommandCharacter hword (by decide)⟩

theorem isToken_attached {name : Text} (h : isSpelling name = true)
    (hi : ∀ x, identifier = some x → Specification.IsIdentifier x) :
    IsToken (name ++ ("[=".toList ++ (identifier.getD [] ++ [']']))) := by
  refine ⟨by simp, fun c hc => ?_⟩
  rcases List.mem_append.mp hc with hc | hc
  · exact (isToken_of_isSpelling h).2 c hc
  rcases List.mem_append.mp hc with hc | hc
  · have hbracket : c = '[' ∨ c = '=' := by simpa using hc
    rcases hbracket with rfl | rfl <;> decide
  rcases List.mem_append.mp hc with hc | hc
  · cases identifier with
    | none => simp at hc
    | some x =>
      have hword := (hi x rfl).isCommandWord.2 c hc
      exact ⟨separatesSpellings_of_isCommandCharacter hword,
        Pattern.ne_of_isCommandCharacter hword (by decide)⟩
  · obtain rfl := List.mem_singleton.mp hc
    decide

theorem isToken_of_mem_attachFirst (h : ∀ name ∈ spellings, isSpelling name = true)
    (hi : ∀ x, identifier = some x → Specification.IsIdentifier x) :
    ∀ t ∈ attachFirst (identifier.getD []) spellings, IsToken t := by
  cases spellings with
  | nil => simp [attachFirst]
  | cons name spellings =>
    intro t ht
    rcases List.mem_cons.mp ht with rfl | ht
    · exact isToken_attached (h name (by simp)) hi
    · exact isToken_of_isSpelling (h t (List.mem_cons_of_mem name ht))

theorem fields_tokens {tokens : List Text} (h : ∀ t ∈ tokens, IsToken t) :
    Text.fields separatesSpellings ([' '].intercalate tokens) = tokens :=
  Text.fields_intercalate (by decide) fun t ht => ⟨(h t ht).1, fun c hc => ((h t ht).2 c hc).1⟩

theorem getLast?_tokens {tokens : List Text} (hne : tokens ≠ []) (h : ∀ t ∈ tokens, IsToken t) :
    [' '].intercalate tokens ≠ [] ∧
      ∀ c ∈ ([' '].intercalate tokens).getLast?, Text.isBlank c = false ∧ c ≠ ':' := by
  induction tokens with
  | nil => exact absurd rfl hne
  | cons t tokens ih =>
    cases tokens with
    | nil =>
      rw [List.intercalate_singleton]
      refine ⟨(h t (by simp)).1, fun c hc => ?_⟩
      obtain ⟨hseparates, hcolon⟩ := (h t (by simp)).2 c (List.mem_of_getLast? hc)
      simp only [separatesSpellings, Bool.or_eq_false_iff] at hseparates
      exact ⟨hseparates.1.1, hcolon⟩
    | cons s tokens =>
      obtain ⟨hrest, hlast⟩ := ih (by simp) fun u hu => h u (List.mem_cons_of_mem t hu)
      rw [List.intercalate_cons_cons]
      refine ⟨by simp, fun c hc => hlast c ?_⟩
      rwa [List.getLast?_append_of_ne_nil _ hrest] at hc

variable {a : Argument}

theorem Accepted.spellings_ne_nil (h : a.Accepted) (hq : a.quantifier = .optional) :
    a.spellings ≠ [] := by
  intro hnil
  exact (h.counted (h.positional_iff.mpr hnil)).2 hq

theorem getLast?_head (h : a.Accepted)
    (hi : ∀ x, identifier = some x → Specification.IsIdentifier x) :
    ∀ c ∈ (a.head identifier).getLast?, Text.isBlank c = false ∧ c ≠ ':' := by
  unfold head
  split_ifs with hq hnil
  · have hne : attachFirst (identifier.getD []) a.spellings ≠ [] := by
      have := h.spellings_ne_nil hq
      cases hs : a.spellings with
      | nil => exact absurd hs this
      | cons name spellings => simp [attachFirst]
    exact (getLast?_tokens hne (isToken_of_mem_attachFirst h.spelled hi)).2
  · have hsign : a.quantifier.sign ≠ [] ∧
        ∀ c ∈ a.quantifier.sign.getLast?, Text.isBlank c = false ∧ c ≠ ':' := by
      cases hsign : a.quantifier with
      | flag => simp [Quantifier.sign]; decide
      | optional => exact absurd hsign hq
      | exactly n =>
        rw [Quantifier.sign, ← List.cons_append, List.getLast?_concat]
        simp [Text.isBlank]
      | atLeastOne => simp [Quantifier.sign]; decide
      | any => simp [Quantifier.sign]; decide
    rw [List.append_nil, List.getLast?_append_of_ne_nil _ hsign.1]
    exact hsign.2
  · obtain ⟨hjoined, hlast⟩ :=
      getLast?_tokens hnil fun t ht => isToken_of_isSpelling (h.spelled t ht)
    rw [List.getLast?_append_of_ne_nil _ (by simp), List.getLast?_cons_of_ne_nil hjoined]
    exact hlast

theorem splitDelimiter_body (h : a.Accepted)
    (hi : ∀ x, identifier = some x → Specification.IsIdentifier x) :
    splitDelimiter (a.body identifier) = .ok (a.head identifier, a.delimiter) := by
  unfold body
  cases hd : a.delimiter with
  | none =>
    rw [clause, List.append_nil]
    exact splitDelimiter_of_getLast? (getLast?_head h hi)
  | some d =>
    obtain ⟨hne, hcolon, -⟩ := h.delimited d hd
    have hbody : a.head identifier ++ clause (some d) =
        (a.head identifier ++ ':' :: d) ++ [':'] := by simp [clause]
    have htrim : Text.trimEnd ((a.head identifier ++ ':' :: d) ++ [':']) =
        (a.head identifier ++ ':' :: d) ++ [':'] := by
      refine Text.trimEnd_eq_self ?_
      rw [List.getLast?_concat]
      simp [Text.isBlank]
    rw [hbody, splitDelimiter, htrim, Text.before?_append, Option.bind_some,
      Text.cutAtLast_append hcolon]
    cases d with
    | nil => exact absurd rfl hne
    | cons c d => rfl

def written (identifier : Option Text) (a : Argument) : Specification :=
  ⟨identifier, some a.quantifier⟩

theorem exists_head_of_optional (h : a.Accepted) (hq : a.quantifier = .optional) :
    ∃ rest, a.head identifier = '-' :: rest := by
  rw [head, if_pos hq]
  cases hs : a.spellings with
  | nil => exact absurd hs (h.spellings_ne_nil hq)
  | cons name spellings =>
    have hdash : ∃ rest, name = '-' :: rest := by
      rcases spelling_cases (h.spelled name (by simp [hs])) with ⟨c, -, rfl⟩ | ⟨long, rfl, -, -⟩
      · exact ⟨_, rfl⟩
      · exact ⟨_, rfl⟩
    obtain ⟨rest, rfl⟩ := hdash
    cases spellings with
    | nil => exact ⟨_, by rw [attachFirst, List.intercalate_singleton]; rfl⟩
    | cons other spellings => exact ⟨_, by rw [attachFirst, List.intercalate_cons_cons]; rfl⟩

theorem readHead_optional (content : Text) (h : a.Accepted) (hq : a.quantifier = .optional) :
    readHead content (a.head identifier) = .ok (none, a.head identifier) := by
  obtain ⟨rest, hhead⟩ := @exists_head_of_optional identifier a h hq
  rw [hhead]
  rfl

theorem readHead_written (content : Text) (h : a.Accepted) (hq : a.quantifier ≠ .optional)
    (hi : ∀ x, identifier = some x → Specification.IsIdentifier x) :
    readHead content (a.head identifier) =
      .ok (some (written identifier a), [' '].intercalate a.spellings) := by
  rw [head, if_neg hq, readHead, Specification.read_written hi hq h.limited, ok_bind]
  dsimp only
  by_cases hnil : a.spellings = []
  · have hend : Text.after? [':'] [] = none := rfl
    rw [if_pos hnil, hend, hnil]
    dsimp only
    rw [if_neg (by simp [Specification.isEmpty])]
    rfl
  · have hnames : Text.after? [':'] (':' :: [' '].intercalate a.spellings) =
        some ([' '].intercalate a.spellings) := Text.after?_append [':'] _
    rw [if_neg hnil, hnames]
    rfl

theorem readBrackets_bracketed (a : Argument) (t : Text) :
    readBrackets (a.opening :: (t ++ [a.closing])) = .ok a.required := by
  rw [readBrackets, ← List.cons_append, List.getLast?_concat]
  cases hr : a.required <;> simp [opening, closing, hr]

theorem readSpellings_head (content : Text) (h : a.Accepted)
    (hi : ∀ x, identifier = some x → Specification.IsIdentifier x) :
    ∃ found names, readHead content (a.head identifier) = .ok (found, names) ∧
      readSpellings found (Text.fields separatesSpellings names) =
        .ok (a.spellings, some (written identifier a)) := by
  by_cases hq : a.quantifier = .optional
  · refine ⟨_, _, readHead_optional content h hq, ?_⟩
    rw [head, if_pos hq, fields_tokens (isToken_of_mem_attachFirst h.spelled hi),
      readSpellings_attachFirst hi (h.spellings_ne_nil hq) h.spelled, written, hq]
  · refine ⟨_, _, readHead_written content h hq hi, ?_⟩
    rw [fields_tokens fun t ht => isToken_of_isSpelling (h.spelled t ht)]
    exact readSpellings_of_isSpelling _ h.spelled

theorem isBracket_opening (a : Argument) : Pattern.isBracket a.opening = true := by
  unfold opening
  split_ifs <;> rfl

theorem isBracket_closing (a : Argument) : Pattern.isBracket a.closing = true := by
  unfold closing
  split_ifs <;> rfl

theorem read_written (h : a.Accepted)
    (hi : ∀ x, identifier = some x → Specification.IsIdentifier x) :
    read (a.opening :: (a.body identifier ++ [a.closing])) =
      .ok { a with variableName := identifier <|> derivedName a.spellings } := by
  have hinner : (a.opening :: (a.body identifier ++ [a.closing])).tail.dropLast =
      a.body identifier := by simp
  obtain ⟨found, names, hhead, hspellings⟩ :=
    readSpellings_head (a.opening :: (a.body identifier ++ [a.closing])) h hi
  have hpositional : a.spellings.isEmpty = a.positional := by
    rw [Bool.eq_iff_iff, List.isEmpty_iff, h.positional_iff]
  have hrequired : (a.positional && !a.required) = false := by
    cases hp : a.positional with
    | false => rfl
    | true => simp [h.necessary hp]
  have hflag : ¬ (a.positional = true ∧ a.quantifier = .flag) :=
    fun ⟨hp, hq⟩ => (h.counted hp).1 hq
  rw [read, trim_bracketed (isBracket_opening a) (isBracket_closing a), readBrackets_bracketed,
    ok_bind, hinner, splitDelimiter_body h hi, ok_bind]
  dsimp only
  rw [hhead, ok_bind]
  dsimp only
  rw [hspellings, ok_bind]
  change (if (a.spellings.isEmpty && !a.required) = true then _
    else if (a.spellings.isEmpty && decide (a.quantifier = .flag)) = true then _
    else pure { a with
      variableName := identifier <|> derivedName a.spellings
      positional := a.spellings.isEmpty }) = _
  rw [hpositional, hrequired, if_neg (by simp), if_neg (by simpa using hflag)]
  rfl

theorem ofNat_ne_isIdentifier {place : Nat} {x : Text} (h : Specification.IsIdentifier x) :
    Text.ofNat place ≠ x := by
  rintro rfl
  cases hd : Text.ofNat place with
  | nil => exact Text.ofNat_ne_nil place hd
  | cons c cs =>
    have hdigit : c.isDigit = true := Text.isDigit_of_mem_ofNat (n := place) (by simp [hd])
    have hupper : c.isUpper = true := by
      have := h.1
      rw [hd] at this
      simpa using this
    simp only [Char.isDigit, Char.isUpper, Bool.and_eq_true, decide_eq_true_eq, ge_iff_le,
      UInt32.le_iff_toNat_le] at hdigit hupper
    have bounds : 'A'.val.toNat = 65 ∧ '9'.val.toNat = 57 := by decide
    omega

def named (place : Nat) (a : Argument) : Argument :=
  if a.positional then
    { a with variableName := some (a.variableName.getD (Text.ofNat place)) }
  else a

/-- The identifier that is written is what the argument had been given. -/
theorem Accepted.identifier_named (h : a.Accepted) (place : Nat) :
    (∀ x, (a.named place).identifier place = some x → Specification.IsIdentifier x) ∧
      ((a.named place).identifier place <|> derivedName a.spellings) = a.variableName := by
  cases hp : a.positional with
  | true =>
    have hnil := h.positional_iff.mp hp
    have hderived : derivedName a.spellings = none := by rw [hnil]; rfl
    have hgiven (x : Text) (hx : a.variableName = some x) : Specification.IsIdentifier x :=
      (h.identified x hx).resolve_right (by simp [hderived])
    have hidentifier : (a.named place).identifier place = a.variableName := by
      cases hv : a.variableName with
      | none => simp [named, identifier, usualName, hp, hv]
      | some x =>
        simp [named, identifier, usualName, hp, hv, (ofNat_ne_isIdentifier (hgiven x hv)).symm]
    rw [hidentifier, hderived]
    exact ⟨hgiven, by cases a.variableName <;> rfl⟩
  | false =>
    obtain ⟨x, hx⟩ := h.toWellFormed.named hp
    by_cases husual : derivedName a.spellings = some x
    · have hidentifier : (a.named place).identifier place = none := by
        simp [named, identifier, usualName, hp, hx, husual]
      rw [hidentifier, husual, hx]
      exact ⟨by simp, rfl⟩
    · have hidentifier : (a.named place).identifier place = some x := by
        simp [named, identifier, usualName, hp, hx, Ne.symm husual]
      rw [hidentifier, hx]
      refine ⟨fun y hy => ?_, rfl⟩
      obtain rfl := Option.some.inj hy
      exact (h.identified x hx).resolve_right husual

theorem render_named (place place' : Nat) (a : Argument) :
    (a.named place).render place' =
      a.opening :: (a.body ((a.named place).identifier place') ++ [a.closing]) := by
  unfold render named
  split_ifs <;> rfl

/-- Every accepted argument is read as it was before its positional was named. -/
theorem read_render_named (h : a.Accepted) (place : Nat) :
    read (a.opening :: (a.body ((a.named place).identifier place) ++ [a.closing])) = .ok a := by
  obtain ⟨hidentifier, hvariable⟩ := h.identifier_named place
  rw [read_written h hidentifier, hvariable]

theorem Accepted.depthAfter_body (h : a.Accepted) (place : Nat) :
    depthAfter 1 (a.body ((a.named place).identifier place)) = some 1 := by
  have hanatomy := anatomy_of_read (isBracket_opening a) (isBracket_closing a)
    (read_render_named h place)
  rw [hanatomy.depthAfter_eq]
  cases hd : a.delimiter with
  | none => rfl
  | some d => exact (h.delimited d hd).2.2

end Argument

namespace Group

theorem readMembers_member {t rest : Text} {a : Argument}
    (ht : Text.trimStart t = a.render 0 ++ rest) (h : a.Accepted) (hp : a.positional = false)
    (hr : a.required = false) :
    readMembers t = readMembers rest >>= fun members => pure (a :: members) := by
  have hnamed : a.named 0 = a := by simp [Argument.named, hp]
  have hread := Argument.read_render_named h 0
  have hdepth := h.depthAfter_body 0
  rw [hnamed] at hread hdepth
  have hopens : Argument.opens a.opening = true := by rw [Argument.opening, hr]; rfl
  have hrun := Pattern.enclosed_cons hopens
    (by rw [Argument.closing, hr]; rfl : Argument.opens a.closing = false)
    (by rw [Argument.closing, hr]; rfl : Argument.closes a.closing = true) hdepth rest
  have htext : Text.trimStart t =
      a.opening :: (a.body (a.identifier 0) ++ a.closing :: rest) := by
    rw [ht, Argument.render]
    simp
  rw [readMembers]
  split
  · rename_i hnil
    exact absurd (htext.symm.trans hnil) (by simp)
  · rename_i c cs hcons
    obtain ⟨rfl, rfl⟩ := List.cons.inj (htext.symm.trans hcons)
    rw [if_pos hopens]
    split
    · rename_i he
      exact absurd (hrun.symm.trans he) (by simp)
    · rename_i run after he
      obtain ⟨rfl, rfl⟩ := Prod.mk.inj (Option.some.inj (hrun.symm.trans he))
      rw [hread, ok_bind, if_neg (by simp [hp]), if_neg (by simp [hr])]

theorem trimStart_render (a : Argument) (rest : Text) :
    Text.trimStart (a.render 0 ++ rest) = a.render 0 ++ rest := by
  refine Text.trimStart_eq_self fun c hc => ?_
  obtain rfl : a.opening = c := by simpa [Argument.render] using hc
  unfold Argument.opening
  split_ifs <;> decide

theorem readMembers_render {members : List Argument} {t : Text}
    (ht : Text.trimStart t = Text.trimStart ([' '].intercalate (members.map (Argument.render 0))))
    (h : ∀ a ∈ members, a.Accepted ∧ a.positional = false ∧ a.required = false) :
    readMembers t = .ok members := by
  induction members generalizing t with
  | nil =>
    rw [readMembers]
    split
    · rfl
    · rename_i c cs hcons
      exact absurd (ht.symm.trans hcons) (by simp [Text.trimStart])
  | cons a members ih =>
    obtain ⟨ha, hp, hr⟩ := h a (by simp)
    have hmembers := fun b hb => h b (List.mem_cons_of_mem a hb)
    cases members with
    | nil =>
      have hone : Text.trimStart t = a.render 0 ++ [] := by
        rw [ht, List.map_singleton, List.intercalate_singleton, ← trimStart_render a [],
          List.append_nil]
      rw [readMembers_member hone ha hp hr, ih (t := []) (by rfl) hmembers]
      rfl
    | cons b members =>
      have hmore : Text.trimStart t =
          a.render 0 ++ (' ' :: [' '].intercalate ((b :: members).map (Argument.render 0))) := by
        rw [ht, ← trimStart_render a, List.map_cons, List.map_cons, List.intercalate_cons_cons,
          List.append_assoc]
        rfl
      rw [readMembers_member hmore ha hp hr, ih (by rfl) hmembers]
      rfl

theorem read_render {g : Group} (h : g.Accepted) :
    read (mark g.required ++
        '(' :: ([' '].intercalate (g.members.map (Argument.render 0)) ++ [')'])) = .ok g ∧
      Argument.parenthesesAfter 1 ([' '].intercalate (g.members.map (Argument.render 0))) =
        some 1 := by
  have hmembers : readMembers ([' '].intercalate (g.members.map (Argument.render 0))) =
      .ok g.members := readMembers_render rfl h.members
  refine ⟨?_, ((readMembers_sound hmembers).2 1).trans h.enclosed⟩
  rw [read_parenthesized, hmembers, ok_bind, if_neg (by simpa using h.inhabited)]
  rfl

end Group

namespace Pattern

theorem readParts_group {ended : Bool} {t rest : Text} {g : Group}
    (ht : Text.trimStart t = g.render ++ rest) (h : g.Accepted) :
    readParts ended t = readParts true rest >>= fun parts => pure (.group g :: parts) := by
  obtain ⟨hread, hdepth⟩ := Group.read_render h
  have hrun : enclosed (· == '(') (· == ')') 0
      ('(' :: ([' '].intercalate (g.members.map (Argument.render 0)) ++ ')' :: rest)) =
      some ('(' :: ([' '].intercalate (g.members.map (Argument.render 0)) ++ [')']), rest) :=
    enclosed_cons (by decide) (by decide) (by decide) hdepth rest
  have htext : Text.trimStart t = Group.mark g.required ++
      '(' :: ([' '].intercalate (g.members.map (Argument.render 0)) ++ ')' :: rest) := by
    rw [ht, Group.render]
    simp
  rw [readParts]
  cases hg : g.required with
  | false =>
    rw [hg] at htext hread
    split
    · rename_i hnil
      exact absurd (htext.symm.trans hnil) (by simp)
    · rename_i c cs hcons
      obtain ⟨rfl, rfl⟩ := List.cons.inj (htext.symm.trans hcons)
      rw [if_neg (by decide), if_pos rfl]
      split
      · rename_i he
        exact absurd (hrun.symm.trans he) (by simp)
      · rename_i run after he
        obtain ⟨rfl, rfl⟩ := Prod.mk.inj (Option.some.inj (hrun.symm.trans he))
        change Group.read ('(' :: (_ ++ [')'])) = _ at hread
        rw [hread, ok_bind]
  | true =>
    rw [hg] at htext hread
    split
    · rename_i hnil
      exact absurd (htext.symm.trans hnil) (by simp)
    · rename_i c cs hcons
      obtain ⟨rfl, rfl⟩ := List.cons.inj (htext.symm.trans hcons)
      rw [if_neg (by decide), if_neg (by decide), if_pos ⟨rfl, rfl⟩]
      split
      · rename_i he
        exact absurd (hrun.symm.trans he) (by simp)
      · rename_i run after he
        obtain ⟨rfl, rfl⟩ := Prod.mk.inj (Option.some.inj (hrun.symm.trans he))
        change Group.read ('!' :: '(' :: (_ ++ [')'])) = _ at hread
        rw [hread, ok_bind]

theorem trimStart_group (g : Group) (rest : Text) :
    Text.trimStart (g.render ++ rest) = g.render ++ rest := by
  refine Text.trimStart_eq_self ?_
  cases hg : g.required <;> simp [Group.render, Group.mark, hg, Text.isBlank]

theorem readParts_groups {groups : List Group} (h : ∀ g ∈ groups, g.Accepted) (ended : Bool) :
    readParts ended (groups.flatMap (' ' :: Group.render ·)) = .ok (groups.map .group) := by
  induction groups generalizing ended with
  | nil => exact readParts_nil ended
  | cons g groups ih =>
    have htrim : Text.trimStart ((g :: groups).flatMap (' ' :: Group.render ·)) =
        g.render ++ groups.flatMap (' ' :: Group.render ·) := by
      rw [← trimStart_group]
      rfl
    rw [readParts_group htrim (h g (by simp)), ih fun k hk => h k (List.mem_cons_of_mem g hk)]
    rfl

theorem nameOrdinals_cons (place : Nat) (a : Argument) (as : List Argument) :
    nameOrdinals place (a :: as) =
      a.named place :: nameOrdinals (if a.positional then place + 1 else place) as := by
  rw [nameOrdinals, Argument.named]
  split_ifs <;> rfl

theorem renderArguments_named (place : Nat) (a : Argument) (as : List Argument) :
    renderArguments place (a.named place :: as) =
      ' ' :: ((a.named place).render place ++
        renderArguments (if a.positional then place + 1 else place) as) := by
  have hp : (a.named place).positional = a.positional := by
    rw [Argument.named]
    split_ifs <;> rfl
  rw [renderArguments, hp]

theorem readParts_arguments {unnamed : List Argument} (h : ∀ a ∈ unnamed, a.Accepted)
    {rest : Text} {parts : List Part} (hrest : ∀ ended, readParts ended rest = .ok parts)
    (place : Nat) (ended : Bool) :
    readParts ended (renderArguments place (nameOrdinals place unnamed) ++ rest) =
      .ok (unnamed.map .argument ++ parts) := by
  -- what is written has its ordinals, and what is read back has not got them yet; the place says
  -- how many positionals stand in front
  induction unnamed generalizing place ended with
  | nil => exact hrest ended
  | cons a unnamed ih =>
    have ha := h a (by simp)
    have hopens : Argument.opens a.opening = true := by
      unfold Argument.opening
      split_ifs <;> rfl
    have hcloses : Argument.opens a.closing = false ∧ Argument.closes a.closing = true := by
      unfold Argument.closing
      split_ifs <;> decide
    have htrim (more : Text) : Text.trimStart (' ' :: ((a.named place).render place ++ more)) =
        a.opening :: (a.body ((a.named place).identifier place) ++ a.closing :: more) := by
      have hblank : Text.isBlank a.opening = false := by
        unfold Argument.opening
        split_ifs <;> decide
      rw [Argument.render_named]
      change Text.trimStart (a.opening :: _ ++ more) = _
      rw [Text.trimStart_eq_self (by simpa using hblank)]
      simp
    rw [nameOrdinals_cons, renderArguments_named, List.cons_append, List.append_assoc,
      readParts_argument (htrim _) hopens hcloses.1 hcloses.2 (ha.depthAfter_body place)
        (Argument.read_render_named ha place),
      ih fun b hb => h b (List.mem_cons_of_mem a hb)]
    rfl

theorem readParts_words {words : List Text} (h : ∀ w ∈ words, IsCommandWord w)
    {rest : Text} {parts : List Part} (hr : ∀ c ∈ rest.head?, Text.isBlank c = true)
    (hrest : readParts false rest = .ok parts) :
    readParts false (words.flatMap (' ' :: ·) ++ rest) = .ok (words.map .word ++ parts) := by
  induction words with
  | nil => exact hrest
  | cons w words ih =>
    have hw := h w (by simp)
    have htrim : Text.trimStart ((w :: words).flatMap (' ' :: ·) ++ rest) =
        w ++ (words.flatMap (' ' :: ·) ++ rest) := by
      rw [← hw.trimStart, List.flatMap_cons, List.append_assoc]
      rfl
    have hblank : ∀ c ∈ (words.flatMap (' ' :: ·) ++ rest).head?, Text.isBlank c = true := by
      cases words with
      | nil => exact hr
      | cons v words => simp [Text.isBlank]
    rw [readParts_word htrim hw hblank, ih fun v hv => h v (List.mem_cons_of_mem w hv)]
    rfl

theorem head?_renderArguments (place : Nat) (as : List Argument) {rest : Text}
    (hr : ∀ c ∈ rest.head?, Text.isBlank c = true) :
    ∀ c ∈ (renderArguments place as ++ rest).head?, Text.isBlank c = true := by
  cases as with
  | nil => exact hr
  | cons a as => simp [renderArguments, Text.isBlank]

def inOrder (words : List Text) (arguments : List Argument) (groups : List Group) : List Part :=
  words.map .word ++ (arguments.map .argument ++ groups.map .group)

section
variable (words : List Text) (arguments : List Argument) (groups : List Group)

theorem filterMap_word?_inOrder :
    (inOrder words arguments groups).filterMap Part.word? = words := by
  simp [inOrder, List.filterMap_map, Function.comp_def, Part.word?]

theorem filterMap_argument?_inOrder :
    (inOrder words arguments groups).filterMap Part.argument? = arguments := by
  simp [inOrder, List.filterMap_map, Function.comp_def, Part.argument?]

theorem filterMap_group?_inOrder :
    (inOrder words arguments groups).filterMap Part.group? = groups := by
  simp [inOrder, List.filterMap_map, Function.comp_def, Part.group?]

end

theorem readParts_render {p : Pattern} (h : p.Accepted) {unnamed : List Argument}
    (hn : p.arguments = nameOrdinals 0 unnamed) (ha : ∀ a ∈ unnamed, a.Accepted) :
    readParts false p.render =
      .ok (inOrder (p.command :: p.subcommands) unnamed p.groups) := by
  have hgroups := readParts_groups h.groups
  have harguments := readParts_arguments ha hgroups 0 false
  have hblank : ∀ c ∈ (p.groups.flatMap (' ' :: Group.render ·)).head?, Text.isBlank c = true := by
    cases p.groups with
    | nil => simp
    | cons g groups => simp [Text.isBlank]
  rw [← hn] at harguments
  have hwords := readParts_words (fun w hw => h.words w (List.mem_cons_of_mem _ hw))
    (head?_renderArguments 0 p.arguments hblank) harguments
  have hcommand : ∀ c ∈ (p.subcommands.flatMap (' ' :: ·) ++
      (renderArguments 0 p.arguments ++ p.groups.flatMap (' ' :: Group.render ·))).head?,
      Text.isBlank c = true := by
    cases p.subcommands with
    | nil => exact head?_renderArguments 0 p.arguments hblank
    | cons w words => simp [Text.isBlank]
  have hw := h.words p.command (by simp)
  rw [render, readParts_word (hw.trimStart _) hw hcommand, hwords]
  rfl

/-- Every pattern that can be read has a written form that is read as the same pattern. -/
theorem rendering_round_trips {t : Text} {p : Pattern} (h : read t = .ok p) :
    read p.render = .ok p := by
  have haccepted := accepted_of_read h
  obtain ⟨unnamed, hnamed, harguments⟩ := haccepted.arguments
  rw [read, readParts_render haccepted hnamed harguments, ok_bind, filterMap_word?_inOrder]
  dsimp only
  rw [filterMap_argument?_inOrder, filterMap_group?_inOrder, ← hnamed]
  rfl

def stash : Pattern where
  command := "git".toList
  subcommands := ["stash".toList]
  arguments := [
    ⟨some ['0'], .exactly 1, [], true, true, none⟩,
    ⟨some "WHEN".toList, .optional, ["--color".toList, "-c".toList], false, false, none⟩,
    ⟨some "FILES".toList, .any, [], true, true, some " [] ".toList⟩]
  groups := [⟨true, [
    ⟨some ['Y'], .exactly 7, ["-y".toList], false, false, some ['(']⟩,
    ⟨some "OFF".toList, .flag, ["-z".toList, "--no-z".toList], false, false, some [')']⟩]⟩]

example : String.ofList stash.render =
    "git stash <\x7b1\x7d> [--color[=WHEN] -c] <FILES*: [] :> " ++
      "!([\x7b7\x7d:-y:(:] [OFF?:-z --no-z:):])" := by cbv

/-- The value of `--color` had its name attached, and the delimiters hold brackets. -/
theorem rendering_round_trips_stash :
    read ("git stash <> [--color[=WHEN] | -c] <FILES*: [] :> " ++
      "!([7:-y:(:] [OFF?:-z --no-z:):])").toList = .ok stash ∧
    read stash.render = .ok stash :=
  have hread : read ("git stash <> [--color[=WHEN] | -c] <FILES*: [] :> " ++
      "!([7:-y:(:] [OFF?:-z --no-z:):])").toList = .ok stash := by cbv
  ⟨hread, rendering_round_trips hread⟩

end Pattern
end Countermand

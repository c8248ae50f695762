import Countermand.Proofs.Pattern.Brackets
import Countermand.Proofs.Pattern.Capturing
import Countermand.Proofs.Pattern.WellFormed
import Countermand.Proofs.Text.Splitting

/-! What the notation of patterns accepts: which variables, counts and delimiters the arguments of
a pattern that was read can have, and how its brackets are nested. Outside of delimiters brackets
are closed where they are opened, so that those of a delimiter have to be closed within it. -/
namespace Countermand
open Results

namespace Text

theorem readCount?_lt {t : Text} {n : Nat} (h : readCount? t = some n) : n < countLimit := by
  unfold readCount? at h
  dsimp only at h
  split_ifs at h with hd
  exact Option.some.inj h ▸ hd.2.2

theorem mem_of_readCount? {t : Text} {n : Nat} (h : readCount? t = some n) :
    ∀ c ∈ t, c.isDigit = true ∨ c = '+' := by
  unfold readCount? at h
  dsimp only at h
  split_ifs at h with hd
  intro c hc
  split at hd
  · rcases List.mem_cons.mp hc with rfl | hc
    · exact .inr rfl
    · exact .inl (List.all_eq_true.mp hd.2.1 c hc)
  · exact .inl (List.all_eq_true.mp hd.2.1 c hc)

end Text

namespace Pattern

def isBracket (c : Char) : Bool := Argument.opens c || Argument.closes c || c == '(' || c == ')'

theorem isBracket_of_isCommandCharacter {c : Char} (h : isCommandCharacter c = true) :
    isBracket c = false := by
  have hne (d : Char) (hd : isCommandCharacter d = false) : c ≠ d := ne_of_isCommandCharacter h hd
  simp [isBracket, Argument.opens, Argument.closes, hne '[' (by decide), hne '<' (by decide),
    hne ']' (by decide), hne '>' (by decide), hne '(' (by decide), hne ')' (by decide)]

theorem isBracket_of_isBlank {c : Char} (h : Text.isBlank c = true) : isBracket c = false := by
  have hne (d : Char) (hd : Text.isBlank d = false) : c ≠ d := by
    rintro rfl
    exact Bool.false_ne_true (hd.symm.trans h)
  simp [isBracket, Argument.opens, Argument.closes, hne '[' (by decide), hne '<' (by decide),
    hne ']' (by decide), hne '>' (by decide), hne '(' (by decide), hne ')' (by decide)]

end Pattern

namespace Specification
open Pattern

/-- The identifier and the count of a specification can be written. -/
structure Accepted (s : Specification) : Prop where
  identifier : ∀ x, s.identifier = some x → IsIdentifier x
  counted : ∀ n, s.quantifier = some (.exactly n) → n < Text.countLimit

theorem readIdentifier_sound (t : Text) :
    t = (readIdentifier t).1.getD [] ++ (readIdentifier t).2 ∧
      ∀ x, (readIdentifier t).1 = some x → IsIdentifier x := by
  cases t with
  | nil => simp [readIdentifier]
  | cons c cs =>
    rw [readIdentifier]
    split_ifs with hc
    · refine ⟨by simp, fun x hx => ?_⟩
      obtain rfl := Option.some.inj hx
      refine ⟨by simpa using hc, fun d hd => ?_⟩
      rcases List.mem_cons.mp hd with rfl | hd
      · simp [isIdentifierCharacter, hc]
      · exact List.mem_takeWhile_imp hd
    · simp

theorem readExactly_sound {t count rest rest' : Text} {q : Option Quantifier}
    (h : readExactly t count rest = .ok (q, rest')) :
    rest' = rest ∧ (∀ c ∈ count, c.isDigit = true ∨ c = '+') ∧
      ∀ n, q = some (.exactly n) → n < Text.countLimit := by
  rw [readExactly] at h
  split at h
  · rename_i n hn
    obtain ⟨rfl, rfl⟩ := Prod.mk.inj (Except.ok.inj h)
    refine ⟨rfl, Text.mem_of_readCount? hn, fun m hm => ?_⟩
    obtain rfl : n = m := by simpa using hm
    exact Text.readCount?_lt hn
  · simp at h

theorem isBracket_of_count {c : Char} (h : c.isDigit = true ∨ c = '+') : isBracket c = false := by
  rcases h with h | rfl
  · exact isBracket_of_isCommandCharacter (by simp [isCommandCharacter, Char.isAlphanum, h])
  · decide

theorem readQuantifier_sound {t rest : Text} {q : Option Quantifier}
    (h : readQuantifier t = .ok (q, rest)) :
    ∃ written, t = written ++ rest ∧ (∀ c ∈ written, isBracket c = false) ∧
      ∀ n, q = some (.exactly n) → n < Text.countLimit := by
  unfold readQuantifier at h
  split at h
  · obtain ⟨rfl, rfl⟩ := Prod.mk.inj (Except.ok.inj h)
    exact ⟨"...".toList, rfl, by simp [isBracket, Argument.opens, Argument.closes], by simp⟩
  · obtain ⟨rfl, rfl⟩ := Prod.mk.inj (Except.ok.inj h)
    exact ⟨['?'], rfl, by simp [isBracket, Argument.opens, Argument.closes], by simp⟩
  · obtain ⟨rfl, rfl⟩ := Prod.mk.inj (Except.ok.inj h)
    exact ⟨['*'], rfl, by simp [isBracket, Argument.opens, Argument.closes], by simp⟩
  · split at h
    · rename_i count after hcut
      obtain ⟨rfl, hcount, hlt⟩ := readExactly_sound h
      refine ⟨'\x7b' :: (count ++ ['\x7d']), by simp [Text.append_of_cutAt hcut], ?_, hlt⟩
      intro c hc
      simp only [List.mem_cons, List.mem_append, List.not_mem_nil, or_false] at hc
      rcases hc with rfl | hc | rfl
      · decide
      · exact isBracket_of_count (hcount c hc)
      · decide
    · simp at h
  · split_ifs at h with hd
    · obtain ⟨rfl, hcount, hlt⟩ := readExactly_sound h
      exact ⟨_, (List.takeWhile_append_dropWhile).symm,
        fun c hc => isBracket_of_count (hcount c hc), hlt⟩
    · obtain ⟨rfl, rfl⟩ := Prod.mk.inj (Except.ok.inj h)
      exact ⟨[], rfl, by simp, by simp⟩
  · obtain ⟨rfl, rfl⟩ := Prod.mk.inj (Except.ok.inj h)
    exact ⟨[], rfl, by simp, by simp⟩

/-- What was read of a specification has no brackets. -/
theorem read_sound {t rest : Text} {s : Specification} (h : read t = .ok (s, rest)) :
    (∃ written, t = written ++ rest ∧ ∀ c ∈ written, isBracket c = false) ∧ s.Accepted := by
  obtain ⟨hidentifier, hname⟩ := readIdentifier_sound t
  obtain ⟨⟨q, after⟩, hq, he⟩ := bind_eq_ok.mp h
  obtain ⟨rfl, rfl⟩ := Prod.mk.inj (Except.ok.inj he)
  obtain ⟨written, hwritten, hplain, hlt⟩ := readQuantifier_sound hq
  refine ⟨⟨(readIdentifier t).1.getD [] ++ written, ?_, fun c hc => ?_⟩, hname, hlt⟩
  · rw [List.append_assoc, ← hwritten]
    exact hidentifier
  · rcases List.mem_append.mp hc with hc | hc
    · cases hx : (readIdentifier t).1 with
      | none => simp [hx] at hc
      | some x =>
        rw [hx] at hc
        exact isBracket_of_isCommandCharacter ((hname x hx).isCommandWord.2 c hc)
    · exact hplain c hc

end Specification

namespace Argument
open Pattern

abbrev depthAfter : Nat → Text → Option Nat := Pattern.depthAfter opens closes

abbrev parenthesesAfter : Nat → Text → Option Nat := Pattern.depthAfter (· == '(') (· == ')')

def Ignores (opens closes : Char → Bool) : Prop :=
  ∀ c, isBracket c = false → opens c = false ∧ closes c = false

theorem ignores_brackets : Ignores opens closes := by
  intro c hc
  simp only [isBracket, Bool.or_eq_false_iff] at hc
  exact ⟨hc.1.1.1, hc.1.1.2⟩

theorem ignores_parentheses : Ignores (· == '(') (· == ')') := by
  intro c hc
  simp only [isBracket, Bool.or_eq_false_iff] at hc
  exact ⟨hc.1.2, hc.2⟩

theorem Ignores.depthAfter_plain {opens closes : Char → Bool} (h : Ignores opens closes) {t : Text}
    (ht : ∀ c ∈ t, isBracket c = false) (depth : Nat) :
    Pattern.depthAfter opens closes depth t = some depth :=
  depthAfter_unbracketed (fun c hc => h c (ht c hc)) depth

/-- A text that leaves the depth as it is, in brackets and in parentheses. -/
def IsNeutral (t : Text) : Prop :=
  depthAfter 1 t = some 1 ∧ ∀ depth, parenthesesAfter depth t = some depth

theorem IsNeutral.append {t rest : Text} (h : IsNeutral t) (hr : IsNeutral rest) :
    IsNeutral (t ++ rest) :=
  ⟨(depthAfter_append_of h.1 rest).trans hr.1,
    fun depth => (depthAfter_append_of (h.2 depth) rest).trans (hr.2 depth)⟩

theorem isNeutral_plain {t : Text} (h : ∀ c ∈ t, isBracket c = false) : IsNeutral t :=
  ⟨ignores_brackets.depthAfter_plain h 1, ignores_parentheses.depthAfter_plain h⟩

theorem isNeutral_bracketed {t : Text} (h : ∀ c ∈ t, isBracket c = false) :
    IsNeutral ('[' :: (t ++ [']'])) := by
  constructor
  · have hinner := depthAfter_append_of (ignores_brackets.depthAfter_plain h 2) [']']
    rw [depthAfter, Pattern.depthAfter, if_pos (by decide)]
    exact hinner
  · intro depth
    have hinner := depthAfter_append_of (ignores_parentheses.depthAfter_plain h depth) [']']
    rw [parenthesesAfter, Pattern.depthAfter, if_neg (by decide), if_neg (by decide)]
    exact hinner

/-- Where the pieces between separators are neutral the whole text is. -/
theorem isNeutral_of_splitWhere {separates : Char → Bool}
    (hs : ∀ c, separates c = true → isBracket c = false) {t : Text}
    (h : ∀ piece ∈ Text.splitWhere separates t, IsNeutral piece) : IsNeutral t := by
  induction hp : Text.splitWhere separates t generalizing t with
  | nil => exact absurd hp (Text.splitWhere_ne_nil separates t)
  | cons piece pieces ih =>
    rcases Text.splitWhere_cases separates t with hone | ⟨run, c, rest, rfl, hc, hmore⟩
    · exact h t (by simp [hone])
    · rw [hmore] at hp h
      obtain ⟨rfl, hrest⟩ := List.cons.inj hp
      have hseparator : IsNeutral [c] :=
        isNeutral_plain fun d hd => hs d (List.mem_singleton.mp hd ▸ hc)
      exact (h run (by simp)).append
        (hseparator.append (ih (fun more hm => h more (List.mem_cons_of_mem run hm)) hrest))

theorem isCommandCharacter_of_isSpelling {name : Text} (h : isSpelling name = true) :
    ∀ c ∈ name, isCommandCharacter c = true := by
  have hword {c : Char} (hc : c.isAlphanum = true ∨ c = '-') :
      isCommandCharacter c = true := by
    rcases hc with hc | rfl
    · simp [isCommandCharacter, hc]
    · decide
  rcases spelling_cases h with ⟨c, hc, rfl⟩ | ⟨long, rfl, -, hlong⟩
  · simpa using ⟨hword (.inr rfl), hword (.inl hc)⟩
  · intro c hc
    rcases List.mem_cons.mp hc with rfl | hc
    · exact hword (.inr rfl)
    rcases List.mem_cons.mp hc with rfl | hc
    · exact hword (.inr rfl)
    · exact hword (hlong c hc)

theorem isBracket_of_isSpelling {name : Text} (h : isSpelling name = true) :
    ∀ c ∈ name, isBracket c = false := fun c hc =>
  isBracket_of_isCommandCharacter (isCommandCharacter_of_isSpelling h c hc)

theorem splitSpelling_sound {token name : Text} {attached : Option Specification}
    (h : splitSpelling token = .ok (name, attached)) (hn : isSpelling name = true) :
    IsNeutral token ∧ ∀ s, attached = some s → s.Accepted := by
  have hname := isNeutral_plain (isBracket_of_isSpelling hn)
  unfold splitSpelling at h
  split at h
  · rename_i front rest hcut
    split at h
    · simp at h
    · rename_i inner hinner
      obtain ⟨⟨spec, after⟩, hread, h⟩ := bind_eq_ok.mp h
      dsimp only at h
      split_ifs at h with hrest
      · simp at h
      obtain ⟨rfl, rfl⟩ := Prod.mk.inj (Except.ok.inj h)
      obtain ⟨⟨written, hwritten, hplain⟩, haccepted⟩ := Specification.read_sound hread
      obtain rfl : after = [] := not_not.mp fun hne => hrest (.inl hne)
      rw [List.append_nil] at hwritten
      have htoken : token = front ++ '[' :: ('=' :: inner ++ [']']) := by
        rw [Text.append_of_cutAt hcut, Text.append_of_before? hinner]
        simp
      refine ⟨?_, fun s hs => ?_⟩
      · rw [htoken]
        refine hname.append (isNeutral_bracketed fun c hc => ?_)
        rcases List.mem_cons.mp hc with rfl | hc
        · decide
        · exact hplain c (hwritten ▸ hc)
      · obtain rfl := Option.some.inj hs
        exact ⟨haccepted.identifier, by simp⟩
  · split at h
    · rename_i front rest hcut
      obtain ⟨⟨spec, after⟩, hread, h⟩ := bind_eq_ok.mp h
      dsimp only at h
      split_ifs at h with hrest
      · simp at h
      obtain ⟨rfl, rfl⟩ := Prod.mk.inj (Except.ok.inj h)
      obtain ⟨⟨written, hwritten, hplain⟩, haccepted⟩ := Specification.read_sound hread
      obtain rfl : after = [] := not_not.mp hrest
      rw [List.append_nil] at hwritten
      refine ⟨?_, fun s hs => Option.some.inj hs ▸ haccepted⟩
      rw [Text.append_of_cutAt hcut, List.append_assoc]
      refine hname.append (isNeutral_plain fun c hc => ?_)
      rcases List.mem_cons.mp hc with rfl | hc
      · decide
      · exact hplain c (hwritten ▸ hc)
    · obtain ⟨rfl, rfl⟩ := Prod.mk.inj (Except.ok.inj h)
      exact ⟨hname, by simp⟩

theorem readSpellings_sound {found spec : Option Specification} {tokens names : List Text}
    (h : readSpellings found tokens = .ok (names, spec))
    (hf : ∀ s, found = some s → s.Accepted) :
    (∀ token ∈ tokens, IsNeutral token) ∧ ∀ s, spec = some s → s.Accepted := by
  induction tokens generalizing found names spec with
  | nil =>
    obtain ⟨-, rfl⟩ := Prod.mk.inj (Except.ok.inj h)
    exact ⟨by simp, hf⟩
  | cons token tokens ih =>
    obtain ⟨⟨name, attached⟩, hsplit, h⟩ := bind_eq_ok.mp h
    dsimp only at h
    split_ifs at h with hname hconflict
    · simp at h
    · simp at h
    · obtain ⟨⟨rest, final⟩, hrest, he⟩ := bind_eq_ok.mp h
      obtain ⟨-, rfl⟩ := Prod.mk.inj (Except.ok.inj he)
      obtain ⟨htoken, hattached⟩ := splitSpelling_sound hsplit (by simpa using hname)
      obtain ⟨htokens, hspec⟩ := ih hrest (by cases found <;> simp_all)
      refine ⟨fun t ht => ?_, hspec⟩
      rcases List.mem_cons.mp ht with rfl | ht
      · exact htoken
      · exact htokens t ht

theorem readHead_sound {content body names : Text} {head : Option Specification}
    (h : readHead content body = .ok (head, names)) :
    (∃ written, body = written ++ names ∧ ∀ c ∈ written, isBracket c = false) ∧
      ∀ s, head = some s → s.Accepted := by
  obtain ⟨⟨spec, rest⟩, hread, h⟩ := bind_eq_ok.mp h
  obtain ⟨⟨written, hbody, hplain⟩, haccepted⟩ := Specification.read_sound hread
  rw [hbody]
  dsimp only at h
  split at h
  · rename_i after hcolon
    obtain ⟨rfl, rfl⟩ := Prod.mk.inj (Except.ok.inj h)
    rw [Text.append_of_after? hcolon]
    refine ⟨⟨written ++ [':'], by simp, fun c hc => ?_⟩, fun s hs => Option.some.inj hs ▸ haccepted⟩
    rcases List.mem_append.mp hc with hc | hc
    · exact hplain c hc
    · obtain rfl := List.mem_singleton.mp hc
      decide
  · split_ifs at h with hempty hblank
    · obtain ⟨rfl, rfl⟩ := Prod.mk.inj (Except.ok.inj h)
      exact ⟨⟨written, rfl, hplain⟩, by simp⟩
    · obtain ⟨rfl, rfl⟩ := Prod.mk.inj (Except.ok.inj h)
      refine ⟨⟨written ++ rest, by simp, fun c hc => ?_⟩,
        fun s hs => Option.some.inj hs ▸ haccepted⟩
      rcases List.mem_append.mp hc with hc | hc
      · exact hplain c hc
      · exact isBracket_of_isBlank (Text.isBlank_of_trim_eq_nil hblank c hc)
    · simp at h

inductive IsClause : Option Text → Text → Prop
  | absent : IsClause none []
  | between {delimiter blanks : Text} : delimiter ≠ [] → ':' ∉ delimiter →
      (∀ c ∈ blanks, Text.isBlank c = true) →
      IsClause (some delimiter) (':' :: (delimiter ++ ':' :: blanks))

theorem splitDelimiter_sound {body head : Text} {delimiter : Option Text}
    (h : splitDelimiter body = .ok (head, delimiter)) :
    ∃ clause, body = head ++ clause ∧ IsClause delimiter clause := by
  unfold splitDelimiter at h
  split at h
  · obtain ⟨rfl, rfl⟩ := Prod.mk.inj (Except.ok.inj h)
    exact ⟨[], by simp, .absent⟩
  · simp at h
  · rename_i front delimiter hne hcut
    obtain ⟨rfl, rfl⟩ := Prod.mk.inj (Except.ok.inj h)
    obtain ⟨inner, hinner, hlast⟩ := Option.bind_eq_some_iff.mp hcut
    obtain ⟨rfl, hcolon⟩ := Text.append_of_cutAtLast hlast
    obtain ⟨blanks, hblanks, hbody⟩ := Text.exists_trimEnd_blanks body
    refine ⟨_, ?_, .between (fun h => hne (by rw [h])) hcolon hblanks⟩
    rw [hbody, Text.append_of_before? hinner]
    simp

/-- A delimiter has all the brackets of its clause. -/
theorem Ignores.depthAfter_clause {opens closes : Char → Bool} (h : Ignores opens closes)
    {delimiter : Option Text} {clause : Text} (hc : IsClause delimiter clause) (depth : Nat) :
    Pattern.depthAfter opens closes depth clause =
      Pattern.depthAfter opens closes depth (delimiter.getD []) := by
  cases hc with
  | absent => rfl
  | between hne hcolon hblanks =>
    rename_i delimiter blanks
    have hfirst : Pattern.depthAfter opens closes depth [':'] = some depth :=
      h.depthAfter_plain (by simp [isBracket, Argument.opens, Argument.closes]) depth
    have hlast (d : Nat) : Pattern.depthAfter opens closes d (':' :: blanks) = some d := by
      refine h.depthAfter_plain (fun c hc => ?_) d
      rcases List.mem_cons.mp hc with rfl | hc
      · decide
      · exact isBracket_of_isBlank (hblanks c hc)
    calc Pattern.depthAfter opens closes depth (':' :: (delimiter ++ ':' :: blanks))
        = Pattern.depthAfter opens closes depth (delimiter ++ ':' :: blanks) :=
          depthAfter_append_of hfirst _
      _ = (Pattern.depthAfter opens closes depth delimiter).bind
            (Pattern.depthAfter opens closes · (':' :: blanks)) := depthAfter_append _ _ _
      _ = Pattern.depthAfter opens closes depth delimiter := by
          simp only [hlast, Option.bind_fun_some]

theorem trim_bracketed {o k : Char} {body : Text} (ho : isBracket o = true)
    (hk : isBracket k = true) : Text.trim (o :: (body ++ [k])) = o :: (body ++ [k]) := by
  have hblank {c : Char} (hc : isBracket c = true) : Text.isBlank c = false := by
    rw [Bool.eq_false_iff]
    intro h
    exact Bool.false_ne_true ((isBracket_of_isBlank h).symm.trans hc)
  refine Text.trim_eq_self ?_ ?_
  · simpa using hblank ho
  · rw [← List.cons_append, List.getLast?_concat]
    simpa using hblank hk

theorem Reading.delimiter_bracketed {o k : Char} {body front names : Text} {a : Argument}
    {given spec : Option Specification}
    (h : Reading (Text.trim (o :: (body ++ [k]))) a front names given spec)
    (ho : isBracket o = true) (hk : isBracket k = true) :
    splitDelimiter body = .ok (front, a.delimiter) := by
  have hdelimiter := h.delimiter
  rwa [trim_bracketed ho hk, List.tail_cons, List.dropLast_concat] at hdelimiter

/-- What holds of the parts of an argument that was read in its brackets. -/
structure Anatomy (body : Text) (a : Argument) : Prop where
  cut : ∃ head clause, body = head ++ clause ∧ IsNeutral head ∧ IsClause a.delimiter clause
  identified : ∀ x, a.variableName = some x →
    Specification.IsIdentifier x ∨ derivedName a.spellings = some x
  required : a.positional = true → a.required = true
  limited : ∀ n, a.quantifier = .exactly n → n < Text.countLimit

theorem anatomy_of_read {o k : Char} {body : Text} {a : Argument} (ho : isBracket o = true)
    (hk : isBracket k = true) (h : read (o :: (body ++ [k])) = .ok a) : Anatomy body a := by
  obtain ⟨front, names, given, spec, hr⟩ := exists_reading h
  obtain ⟨clause, hclause, hend⟩ := splitDelimiter_sound (hr.delimiter_bracketed ho hk)
  obtain ⟨⟨written, hfront, hplain⟩, hfound⟩ := readHead_sound hr.head
  obtain ⟨hneutral, hspec⟩ := readSpellings_sound hr.spellings hfound
  refine ⟨⟨front, clause, hclause, ?_, hend⟩, fun x hx => ?_, fun hp => (hr.necessary hp).1,
    fun n hn => ?_⟩
  · have hpieces (piece : Text) (hp : piece ∈ Text.splitWhere separatesSpellings names) :
        IsNeutral piece := by
      by_cases hempty : piece = []
      · rw [hempty]
        exact isNeutral_plain (by simp)
      · exact hneutral piece (List.mem_filter.mpr ⟨hp, by simpa using hempty⟩)
    rw [hfront]
    refine (isNeutral_plain hplain).append (isNeutral_of_splitWhere (fun c hc => ?_) hpieces)
    simp only [separatesSpellings, Bool.or_eq_true, beq_iff_eq] at hc
    rcases hc with (hc | rfl) | rfl
    · exact isBracket_of_isBlank hc
    · decide
    · decide
  · rw [hr.variableName] at hx
    cases hspecified : spec.bind Specification.identifier with
    | none => exact .inr (by simpa [hspecified] using hx)
    | some y =>
      obtain rfl : y = x := by simpa [hspecified] using hx
      obtain ⟨s, hs, hy⟩ := Option.bind_eq_some_iff.mp hspecified
      exact .inl ((hspec s hs).identifier y hy)
  · rw [hr.quantifier] at hn
    cases hquantified : spec.bind Specification.quantifier with
    | none =>
      obtain rfl : 1 = n := by simpa [hquantified] using hn
      decide
    | some q =>
      obtain rfl : q = .exactly n := by simpa [hquantified] using hn
      obtain ⟨s, hs, hq⟩ := Option.bind_eq_some_iff.mp hquantified
      exact (hspec s hs).counted n hq

theorem Anatomy.depthAfter_eq {body : Text} {a : Argument} (h : Anatomy body a) :
    depthAfter 1 body = depthAfter 1 (a.delimiter.getD []) := by
  obtain ⟨head, clause, rfl, hhead, hclause⟩ := h.cut
  exact (depthAfter_append_of hhead.1 clause).trans (ignores_brackets.depthAfter_clause hclause 1)

theorem Anatomy.parenthesesAfter_eq {body : Text} {a : Argument} (h : Anatomy body a)
    (depth : Nat) :
    parenthesesAfter depth body = parenthesesAfter depth (a.delimiter.getD []) := by
  obtain ⟨head, clause, rfl, hhead, hclause⟩ := h.cut
  exact (depthAfter_append_of (hhead.2 depth) clause).trans
    (ignores_parentheses.depthAfter_clause hclause depth)

theorem Anatomy.parenthesesAfter_bracketed {o k : Char} {body : Text} {a : Argument}
    (h : Anatomy body a) (ho : opens o = true) (hk : closes k = true) (depth : Nat) :
    parenthesesAfter depth (o :: (body ++ [k])) =
      parenthesesAfter depth (a.delimiter.getD []) := by
  have hopening : ∀ c ∈ [o], (c == '(') = false ∧ (c == ')') = false := by
    simp only [opens, Bool.or_eq_true, beq_iff_eq] at ho
    rcases ho with rfl | rfl <;> simp
  have hclosing : ∀ c ∈ [k], (c == '(') = false ∧ (c == ')') = false := by
    simp only [closes, Bool.or_eq_true, beq_iff_eq] at hk
    rcases hk with rfl | rfl <;> simp
  calc parenthesesAfter depth (o :: (body ++ [k]))
      = parenthesesAfter depth (body ++ [k]) :=
        depthAfter_append_of (depthAfter_unbracketed hopening depth) (body ++ [k])
    _ = (parenthesesAfter depth body).bind (parenthesesAfter · [k]) := depthAfter_append _ _ _
    _ = parenthesesAfter depth body := by
        simp only [parenthesesAfter, depthAfter_unbracketed hclosing, Option.bind_fun_some]
    _ = parenthesesAfter depth (a.delimiter.getD []) := h.parenthesesAfter_eq depth

/-- What holds of an argument in a pattern that was read, before its positionals are named. -/
structure Accepted (a : Argument) : Prop extends WellFormed a where
  identified : ∀ x, a.variableName = some x →
    Specification.IsIdentifier x ∨ derivedName a.spellings = some x
  necessary : a.positional = true → a.required = true
  limited : ∀ n, a.quantifier = .exactly n → n < Text.countLimit
  delimited : ∀ d, a.delimiter = some d → d ≠ [] ∧ ':' ∉ d ∧ depthAfter 1 d = some 1

theorem accepted_of_read {o k : Char} {body : Text} {a : Argument} (ho : isBracket o = true)
    (hk : isBracket k = true) (hd : depthAfter 1 body = some 1)
    (h : read (o :: (body ++ [k])) = .ok a) : a.Accepted := by
  have hanatomy := anatomy_of_read ho hk h
  refine ⟨wellFormed_of_read h, hanatomy.identified, hanatomy.required, hanatomy.limited, ?_⟩
  intro d hdelimiter
  have hdepth := hanatomy.depthAfter_eq.symm.trans hd
  obtain ⟨head, clause, -, -, hclause⟩ := hanatomy.cut
  rw [hdelimiter] at hdepth hclause
  cases hclause with
  | between hne hcolon _ => exact ⟨hne, hcolon, hdepth⟩

end Argument

namespace Group
open Pattern

def mark (required : Bool) : Text := if required then ['!'] else []

def delimiters (members : List Argument) : Text := members.flatMap fun a => a.delimiter.getD []

structure Accepted (g : Group) : Prop where
  members : ∀ a ∈ g.members, a.Accepted ∧ a.positional = false ∧ a.required = false
  inhabited : g.members ≠ []
  enclosed : Argument.parenthesesAfter 1 (delimiters g.members) = some 1

theorem read_parenthesized (required : Bool) (inner : Text) :
    read (mark required ++ '(' :: (inner ++ [')'])) =
      readMembers inner >>= fun members =>
        if members.isEmpty then
          PatternFault.emptyGroup.on (mark required ++ '(' :: (inner ++ [')']))
        else pure ⟨required, members⟩ := by
  have htrim : Text.trim (mark required ++ '(' :: (inner ++ [')'])) =
      mark required ++ '(' :: (inner ++ [')']) := by
    refine Text.trim_eq_self (by cases required <;> simp [mark, Text.isBlank]) ?_
    rw [← List.cons_append, ← List.append_assoc, List.getLast?_concat]
    simp [Text.isBlank]
  have hinner : (Text.after? ['('] ('(' :: (inner ++ [')']))).bind (Text.before? [')']) =
      some inner := by
    have hafter := Text.after?_append ['('] (inner ++ [')'])
    rw [List.singleton_append] at hafter
    rw [hafter, Option.bind_some, Text.before?_append]
  rw [read, htrim]
  cases required
  all_goals
    dsimp only
    split
    · rename_i hnone
      exact absurd (hinner.symm.trans hnone) (by simp)
    · rename_i found hfound
      obtain rfl := Option.some.inj (hinner.symm.trans hfound)
      rfl

theorem readMembers_sound {t : Text} {members : List Argument}
    (h : readMembers t = .ok members) :
    (∀ a ∈ members, a.Accepted ∧ a.positional = false ∧ a.required = false) ∧
      ∀ depth, Argument.parenthesesAfter depth t =
        Argument.parenthesesAfter depth (delimiters members) := by
  fun_induction readMembers t generalizing members with
  | case1 t ht =>
    obtain rfl := Except.ok.inj h
    obtain ⟨blanks, hblanks, htext⟩ := Text.exists_blanks_trimStart t
    rw [ht, List.append_nil] at htext
    refine ⟨by simp, fun depth => ?_⟩
    rw [htext]
    exact Argument.ignores_parentheses.depthAfter_plain
      (fun c hc => isBracket_of_isBlank (hblanks c hc)) depth
  | case2 => simp at h
  | case3 t c cs ht hc run rest he ih =>
    obtain ⟨member, hm, h⟩ := bind_eq_ok.mp h
    split_ifs at h with hp hr
    · simp at h
    · simp at h
    obtain ⟨more, hmore, heq⟩ := bind_eq_ok.mp h
    obtain rfl := Except.ok.inj heq
    obtain ⟨hmembers, hdepth⟩ := ih hmore
    obtain ⟨body, k, rfl, -, hk, hbody⟩ := exists_of_enclosed_cons hc he
    have hopening : isBracket c = true := by simp [isBracket, hc]
    have hclosing : isBracket k = true := by simp [isBracket, hk]
    have hanatomy := Argument.anatomy_of_read hopening hclosing hm
    refine ⟨fun a ha => ?_, fun depth => ?_⟩
    · rcases List.mem_cons.mp ha with rfl | ha
      · exact ⟨Argument.accepted_of_read hopening hclosing hbody hm, by simpa using hp,
          by simpa using hr⟩
      · exact hmembers a ha
    · obtain ⟨blanks, hblanks, htext⟩ := Text.exists_blanks_trimStart t
      have hfront : Argument.parenthesesAfter depth blanks = some depth :=
        Argument.ignores_parentheses.depthAfter_plain
          (fun c hc => isBracket_of_isBlank (hblanks c hc)) depth
      have hrun := hanatomy.parenthesesAfter_bracketed hc hk depth
      rw [htext, ht, (append_of_enclosed he).1]
      calc Argument.parenthesesAfter depth (blanks ++ (c :: (body ++ [k]) ++ rest))
          = Argument.parenthesesAfter depth (c :: (body ++ [k]) ++ rest) :=
            depthAfter_append_of hfront _
        _ = (Argument.parenthesesAfter depth (member.delimiter.getD [])).bind
              (Argument.parenthesesAfter · (delimiters more)) := by
            rw [Argument.parenthesesAfter, depthAfter_append, ← Argument.parenthesesAfter, hrun]
            simp only [hdepth]
        _ = Argument.parenthesesAfter depth (delimiters (member :: more)) :=
            (depthAfter_append _ _ _).symm
  | case4 => simp at h

theorem accepted_of_enclosed {required : Bool} {cs run rest : Text} {g : Group}
    (he : enclosed (· == '(') (· == ')') 0 ('(' :: cs) = some (run, rest))
    (h : read (mark required ++ run) = .ok g) : g.Accepted := by
  obtain ⟨inner, k, rfl, -, hk, hinner⟩ := exists_of_enclosed_cons (by decide) he
  obtain rfl : k = ')' := by simpa using hk
  rw [read_parenthesized] at h
  obtain ⟨members, hmembers, h⟩ := bind_eq_ok.mp h
  split_ifs at h with hempty
  · simp at h
  obtain rfl := Except.ok.inj h
  obtain ⟨haccepted, hdepth⟩ := readMembers_sound hmembers
  exact ⟨haccepted, by simpa using hempty, (hdepth 1).symm.trans hinner⟩

end Group

namespace Pattern

def Part.Accepted : Part → Prop
  | .word w => IsCommandWord w
  | .argument a => a.Accepted
  | .group g => g.Accepted

theorem accepted_of_readParts {ended : Bool} {t : Text} {parts : List Part}
    (h : readParts ended t = .ok parts) : ∀ part ∈ parts, part.Accepted := by
  fun_induction readParts ended t generalizing parts with
  | case1 =>
    obtain rfl := Except.ok.inj h
    simp
  | case2 | case4 | case6 | case8 | case9 => simp at h
  | case3 ended t c cs ht hc run rest he ih =>
    obtain ⟨a, ha, hmore⟩ := bind_eq_ok.mp h
    obtain ⟨body, k, rfl, -, hk, hbody⟩ := exists_of_enclosed_cons hc he
    have haccepted : Part.Accepted (.argument a) :=
      Argument.accepted_of_read (by simp [isBracket, hc]) (by simp [isBracket, hk]) hbody ha
    exact forall_of_bind_cons hmore haccepted fun _ hr => ih hr
  | case5 ended t cs run rest ht hc he ih =>
    obtain ⟨g, hg, hmore⟩ := bind_eq_ok.mp h
    have haccepted : Part.Accepted (.group g) := Group.accepted_of_enclosed (g := g) he (by
      change Group.read (Group.mark false ++ run) = _ at hg
      exact hg)
    exact forall_of_bind_cons hmore haccepted fun _ hr => ih hr
  | case7 ended t c cs ht hc hp hn run rest he ih =>
    obtain ⟨g, hg, hmore⟩ := bind_eq_ok.mp h
    obtain ⟨rfl, hhead⟩ := hn
    obtain ⟨more, rfl⟩ := List.head?_eq_some_iff.mp hhead
    have haccepted : Part.Accepted (.group g) := Group.accepted_of_enclosed (g := g) he (by
      change Group.read (Group.mark true ++ run) = _ at hg
      exact hg)
    exact forall_of_bind_cons hmore haccepted fun _ hr => ih hr
  | case10 =>
    rename_i w _ hall ih
    have haccepted : Part.Accepted (.word w) :=
      ⟨List.cons_ne_nil _ _, fun c hc => List.all_eq_true.mp (by simpa using hall) c hc⟩
    exact forall_of_bind_cons h haccepted fun _ hr => ih hr

structure Accepted (p : Pattern) : Prop where
  words : ∀ w ∈ p.command :: p.subcommands, IsCommandWord w
  /-- The ordinals of the positionals come last. -/
  arguments : ∃ unnamed, p.arguments = nameOrdinals 0 unnamed ∧ ∀ a ∈ unnamed, a.Accepted
  groups : ∀ g ∈ p.groups, g.Accepted

theorem accepted_of_read {t : Text} {p : Pattern} (h : read t = .ok p) : p.Accepted := by
  obtain ⟨parts, hparts, h⟩ := bind_eq_ok.mp h
  have haccepted := accepted_of_readParts hparts
  split at h
  · simp at h
  · rename_i command subcommands hwords
    obtain rfl := Except.ok.inj h
    exact ⟨fun w hw => haccepted _ (Part.word_mem (hwords ▸ hw)),
      ⟨_, rfl, fun a ha => haccepted _ (Part.argument_mem ha)⟩,
      fun g hg => haccepted _ (Part.group_mem hg)⟩

end Pattern
end Countermand

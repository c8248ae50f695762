import Countermand.Proofs.Template.Rows

/-! What an expansion depends on. The tokens of a template are those of its fragments and, for
each double-quoted one, those of that string as a template of its own; environments that agree on
the identifiers among them cannot be told apart. -/
namespace Countermand
open Results

/-- An identifier stands in a fragment of a template, or in a string inside of one. The fragment
need not be an expression for this, it is enough that it consists of tokens. -/
inductive Template.HasIdentifier : Markers → Text → Text → Prop
  | word {m : Markers} {t f name : Text} {segments : List Segment} {tokens : List Token}
    {column : Nat} (cut : Segment.ofTemplate m t = some segments) (mem : .fragment f ∈ segments)
    (scan : Token.ofText (Text.trim f) = .ok tokens) (token : ⟨.word name, column⟩ ∈ tokens) :
    HasIdentifier m t name
  | string {m : Markers} {t f body name : Text} {segments : List Segment} {tokens : List Token}
    {column : Nat} (cut : Segment.ofTemplate m t = some segments) (mem : .fragment f ∈ segments)
    (scan : Token.ofText (Text.trim f) = .ok tokens) (token : ⟨.quoted body, column⟩ ∈ tokens)
    (inner : HasIdentifier .backquote body name) : HasIdentifier m t name

/-- An identifier is spelled in an expression, or stands in a string that is. -/
def Expression.HasIdentifier (e : Expression) (name : Text) : Prop :=
  .word name ∈ e.spelling ∨
    ∃ body, .quoted body ∈ e.spelling ∧ Template.HasIdentifier .backquote body name

namespace Template

/-- The tokens of an expression in a fragment are the tokens of the fragment. -/
theorem IsFragment.exists_token {m : Markers} {t : Text} {e : Expression} (h : IsFragment m t e)
    {x : Lexeme} (hx : x ∈ e.spelling) :
    ∃ segments f tokens column, Segment.ofTemplate m t = some segments ∧
      .fragment f ∈ segments ∧ Token.ofText (Text.trim f) = .ok tokens ∧
      (⟨x, column⟩ : Token) ∈ tokens := by
  obtain ⟨segments, f, hs, hf, he⟩ := h
  obtain ⟨-, tokens, hscan, hspelling⟩ := Expression.parse_sound he
  rw [← hspelling] at hx
  obtain ⟨⟨_, column⟩, htoken, rfl⟩ := List.mem_map.mp hx
  exact ⟨segments, f, tokens, column, hs, hf, hscan, htoken⟩

theorem IsFragment.hasIdentifier {m : Markers} {t : Text} {e : Expression}
    (h : IsFragment m t e) {name : Text} (hn : e.HasIdentifier name) :
    HasIdentifier m t name := by
  rcases hn with hword | ⟨body, hbody, inner⟩
  · obtain ⟨_, _, _, _, hs, hf, hscan, htoken⟩ := h.exists_token hword
    exact .word hs hf hscan htoken
  · obtain ⟨_, _, _, _, hs, hf, hscan, htoken⟩ := h.exists_token hbody
    exact .string hs hf hscan htoken inner

end Template

namespace Expression

theorem IsPart.hasIdentifier {part e : Expression} (h : part.IsPart e) {name : Text}
    (hn : part.HasIdentifier name) : e.HasIdentifier name := by
  rcases hn with hword | ⟨body, hbody, inner⟩
  · exact .inl (h.mem_spelling hword)
  · exact .inr ⟨body, h.mem_spelling hbody, inner⟩

theorem Mentions.hasIdentifier {e : Expression} {usage : Usage} {name : Text}
    (h : e.Mentions usage name) : e.HasIdentifier name := by
  induction h with
  | access => exact .inl (by simp [spelling])
  | spread => exact .inl (by simp [spelling])
  | existence => exact .inl (by simp [spelling])
  | @quoted body _ _ _ fragment _ ih =>
    exact .inr ⟨body, by simp [spelling], fragment.hasIdentifier ih⟩
  | condition _ ih => exact IsPart.condition.hasIdentifier ih
  | yes _ ih => exact IsPart.yes.hasIdentifier ih
  | no _ ih => exact IsPart.no.hasIdentifier ih
  | chain _ ih => exact IsPart.chain.hasIdentifier ih
  | argument _ mem _ ih => exact (IsPart.argument mem).hasIdentifier ih
  | joined mem _ ih => exact (IsPart.argument mem).hasIdentifier ih
  | checked mem _ ih => exact (IsPart.checked mem).hasIdentifier ih
  | checkChain _ ih => exact IsPart.checkChain.hasIdentifier ih

end Expression

namespace Template

/-- Environments that bind the identifiers of a template to the same values, and leave the same
ones unbound, give the same commands or the same error. -/
theorem expand_eq_of_identifiers (host : Host) {b b' : Bindings} {m : Markers} {t : Text}
    (separator : Option Text)
    (h : ∀ name, HasIdentifier m t name → b.get? name = b'.get? name) :
    expand host b m separator t = expand host b' m separator t := by
  refine expand_congr fun usage name hm => h name ?_
  obtain ⟨e, fragment, he⟩ := hm
  exact fragment.hasIdentifier he.hasIdentifier

theorem hasIdentifier_moves_string {name : Text}
    (h : HasIdentifier .backquote "\x60dirname($A)\x60/b".toList name) : name = "A".toList := by
  have tokens {segments : List Segment} {f : Text} {tokens : List Token}
      (cut : Segment.ofTemplate .backquote "\x60dirname($A)\x60/b".toList = some segments)
      (mem : .fragment f ∈ segments) (scan : Token.ofText (Text.trim f) = .ok tokens) :
      tokens = [⟨.operation .dirname, 1⟩, ⟨.openParen, 8⟩, ⟨.dollar, 9⟩, ⟨.word "A".toList, 10⟩,
        ⟨.closeParen, 11⟩] := by
    obtain rfl := Option.some.inj (ofTemplate_moves_string.symm.trans cut)
    obtain rfl : f = "dirname($A)".toList := by simpa [stringSegments] using mem
    exact Except.ok.inj (scan.symm.trans ofText_dirname)
  cases h with
  | word cut mem scan token =>
    obtain rfl := tokens cut mem scan
    obtain ⟨hname, -⟩ : name = "A".toList ∧ _ := by simpa using token
    exact hname
  | string cut mem scan token =>
    obtain rfl := tokens cut mem scan
    simp at token

theorem hasIdentifier_moves {name : Text} (h : HasIdentifier .percent moves name) :
    name = "A".toList := by
  have tokens {segments : List Segment} {f : Text} {tokens : List Token}
      (cut : Segment.ofTemplate .percent moves = some segments)
      (mem : .fragment f ∈ segments) (scan : Token.ofText (Text.trim f) = .ok tokens) :
      tokens = [⟨.dollar, 1⟩, ⟨.word "A".toList, 2⟩] ∨
        tokens = [⟨.quoted "\x60dirname($A)\x60/b".toList, 1⟩] := by
    obtain rfl := Option.some.inj (ofTemplate_moves.symm.trans cut)
    obtain rfl | rfl : f = " $A ".toList ∨ f = " \"\x60dirname($A)\x60/b\" ".toList := by
      simpa [moveSegments] using mem
    · exact .inl (Except.ok.inj (scan.symm.trans ofText_access))
    · exact .inr (Except.ok.inj (scan.symm.trans ofText_quoted))
  cases h with
  | word cut mem scan token =>
    rcases tokens cut mem scan with rfl | rfl
    · obtain ⟨hname, -⟩ : name = "A".toList ∧ _ := by simpa using token
      exact hname
    · simp at token
  | string cut mem scan token inner =>
    rcases tokens cut mem scan with rfl | rfl
    · simp at token
    · obtain ⟨rfl, -⟩ : _ = "\x60dirname($A)\x60/b".toList ∧ _ := by simpa using token
      exact hasIdentifier_moves_string inner

/-- A variable that stands in the literal text only does not matter. -/
theorem expand_eq_of_identifiers_moves :
    (∀ name, HasIdentifier .percent moves name →
      Bindings.get? [("mv".toList, .flag true), ("A".toList, .list moved)] name =
        Bindings.get? [("A".toList, .list moved)] name) ∧
      expand bareHost [("mv".toList, .flag true), ("A".toList, .list moved)] .percent none moves =
        expand bareHost [("A".toList, .list moved)] .percent none moves := by
  have hagree : ∀ name, HasIdentifier .percent moves name →
      Bindings.get? [("mv".toList, .flag true), ("A".toList, .list moved)] name =
        Bindings.get? [("A".toList, .list moved)] name := by
    intro name hn
    obtain rfl := hasIdentifier_moves hn
    rfl
  exact ⟨hagree, expand_eq_of_identifiers bareHost none hagree⟩

end Template
end Countermand

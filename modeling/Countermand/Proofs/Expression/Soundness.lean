import Countermand.Expression.Reading
import Countermand.Proofs.Expression.Grammar
import Countermand.Proofs.Results

/-! What a reader takes from the front of the tokens is the spelling of the tree that it returns,
which is well formed, and no colon is left behind that the tree could have taken. -/
namespace Countermand.Expression
open Results

def lexemes (tokens : List Token) : List Lexeme := tokens.map Token.lexeme

@[simp] theorem lexemes_nil : lexemes [] = [] := rfl

@[simp] theorem lexemes_cons (t : Token) (ts : List Token) :
    lexemes (t :: ts) = t.lexeme :: lexemes ts := rfl

/-- A form of some kind stands at the front of the tokens, and `rest` is left. -/
structure Reads (kind : ExpressionKind) (tokens : List Token) (e : Expression)
    (rest : List Token) : Prop where
  wellFormed : e.WellFormed
  kind_eq : e.kind = kind
  spelled : lexemes tokens = e.spelling ++ lexemes rest
  innermost : e.endsOpen = true → (lexemes rest).head? ≠ some .colon

/-- The symbols that are asked for by their kind have no other lexeme of that kind. -/
theorem Lexeme.eq_of_kind_eq {x y : Lexeme} (h : y.kind = x.kind)
    (hx : x = .openParen ∨ x = .closeParen ∨ x = .question) : y = x := by
  rcases hx with rfl | rfl | rfl <;> cases y <;> simp_all [Lexeme.kind]

theorem exists_of_lexemes_eq_cons {tokens : List Token} {x : Lexeme} {rest : List Lexeme}
    (h : lexemes tokens = x :: rest) :
    ∃ column ts, tokens = ⟨x, column⟩ :: ts ∧ lexemes ts = rest := by
  obtain ⟨t, ts, rfl, rfl, hr⟩ := List.map_eq_cons_iff.mp h
  exact ⟨t.column, ts, rfl, hr⟩

theorem expect_sound (x : Lexeme) (hx : x = .openParen ∨ x = .closeParen ∨ x = .question)
    {tokens : List Token} {a : Unit} {rest : { rest : List Token // rest.length < tokens.length }}
    (h : expect x.kind tokens = .ok (a, rest)) : lexemes tokens = x :: lexemes rest.1 := by
  cases tokens with
  | nil => simp [expect] at h
  | cons t ts =>
    simp only [expect] at h
    split at h
    · rename_i ht
      obtain ⟨-, rfl⟩ := Prod.mk.inj (Except.ok.inj h)
      rw [lexemes_cons, Lexeme.eq_of_kind_eq ht hx]
    · simp at h

theorem expect_lexeme {x : Lexeme} {tokens : List Token} {rest : List Lexeme}
    (h : lexemes tokens = x :: rest) :
    ∃ left hl, expect x.kind tokens = .ok ((), ⟨left, hl⟩) ∧ lexemes left = rest := by
  obtain ⟨column, ts, rfl, hr⟩ := exists_of_lexemes_eq_cons h
  exact ⟨ts, by simp, by simp [expect], hr⟩

theorem head?_alternativeSpelling {no : Option Expression} (h : no ≠ none) {rest : List Lexeme} :
    (alternativeSpelling no ++ rest).head? = some .colon := by
  cases no with
  | none => exact absurd rfl h
  | some e => rfl

theorem readAlternative_of_head?_ne {tokens : List Token}
    (h : (lexemes tokens).head? ≠ some .colon) :
    readAlternative tokens = .ok (none, ⟨tokens, Nat.le_refl _⟩) := by
  unfold readAlternative
  split
  · exact absurd rfl h
  · rfl

theorem readMoreArguments_of_head?_ne {tokens : List Token}
    (h : (lexemes tokens).head? ≠ some .comma) :
    readMoreArguments tokens = (do
      let (_, rest) ← expect .closeParen tokens
      return ([], rest)) := by
  unfold readMoreArguments
  split
  · exact absurd rfl h
  · rfl

theorem readChain_of_head?_ne {tokens : List Token} (hand : (lexemes tokens).head? ≠ some .and)
    (hor : (lexemes tokens).head? ≠ some .or) :
    readChain tokens = .ok (none, ⟨tokens, Nat.le_refl _⟩) := by
  unfold readChain
  split
  · exact absurd rfl hand
  · exact absurd rfl hor
  · rfl

theorem readAccessor_sound {tokens : List Token} {e : Expression}
    {rest : { rest : List Token // rest.length < tokens.length }}
    (h : readAccessor tokens = .ok (e, rest)) :
    e.WellFormed ∧ e.kind = .value ∧ e.endsOpen = false ∧
      .dollar :: lexemes tokens = e.spelling ++ lexemes rest.1 := by
  unfold readAccessor at h
  split at h
  · simp at h
  · split at h
    · rename_i t ts hts name ht
      split at h
      · obtain ⟨rfl, rfl⟩ := Prod.mk.inj (Except.ok.inj h)
        refine ⟨.access (.inr rfl), rfl, rfl, ?_⟩
        simp [spelling, Spread.spelling, ht]
      · obtain ⟨rfl, rfl⟩ := Prod.mk.inj (Except.ok.inj h)
        refine ⟨.access (.inl rfl), rfl, rfl, ?_⟩
        simp [spelling, Spread.spelling, ht]
    · simp at h

theorem checkArity_eq_ok {name : Text} {arity : Nat} {arguments : List Expression} :
    checkArity name arity arguments = .ok () ↔ arguments.length = arity := by
  simp [checkArity]

theorem callOperation_eq_ok {op : Operation} {arguments : List Expression} {e : Expression}
    (h : callOperation op arguments = .ok e) :
    arguments.length = op.arity ∧ .operation op arguments = e := by
  obtain ⟨_, hc, h⟩ := bind_eq_ok.mp h
  exact ⟨checkArity_eq_ok.mp hc, Except.ok.inj h⟩

mutual

theorem readValue_sound {tokens : List Token} {e : Expression}
    {rest : { rest : List Token // rest.length < tokens.length }}
    (h : readValue tokens = .ok (e, rest)) : Reads .value tokens e rest.1 := by
  match tokens, rest, h with
  | [], _, h => simp [readValue] at h
  | t :: ts, rest, h =>
    unfold readValue at h
    dsimp only at h
    split at h
    · rename_i op ht
      obtain ⟨⟨arguments, left, hl⟩, ha, h⟩ := bind_eq_ok.mp h
      obtain ⟨e, hc, h⟩ := bind_eq_ok.mp h
      obtain ⟨rfl, rfl⟩ := Prod.mk.inj (Except.ok.inj h)
      obtain ⟨hw, hs⟩ := readArguments_sound ha
      obtain ⟨harity, rfl⟩ := callOperation_eq_ok hc
      refine ⟨.operation harity (fun e he => (hw e he).1) fun e he => (hw e he).2, rfl, ?_, nofun⟩
      simp [spelling, ht, hs]
    · rename_i body ht
      obtain ⟨rfl, rfl⟩ := Prod.mk.inj (Except.ok.inj h)
      exact ⟨.literal, rfl, by simp [spelling, ht], nofun⟩
    · rename_i body ht
      obtain ⟨rfl, rfl⟩ := Prod.mk.inj (Except.ok.inj h)
      exact ⟨.quoted, rfl, by simp [spelling, ht], nofun⟩
    · rename_i ht
      obtain ⟨⟨e, left, hl⟩, ha, h⟩ := bind_eq_ok.mp h
      obtain ⟨rfl, rfl⟩ := Prod.mk.inj (Except.ok.inj h)
      obtain ⟨hw, hk, ho, hs⟩ := readAccessor_sound ha
      exact ⟨hw, hk, by simp [ht, hs], by simp [ho]⟩
    · exact readChoice_sound h
    · exact readChoice_sound h
    · exact readChoice_sound h
    · simp at h
termination_by (tokens.length, 3)

theorem readChoice_sound {tokens : List Token} {e : Expression}
    {rest : { rest : List Token // rest.length < tokens.length }}
    (h : readChoice tokens = .ok (e, rest)) : Reads .value tokens e rest.1 := by
  unfold readChoice at h
  obtain ⟨⟨condition, afterCondition, hlc⟩, hc, h⟩ := bind_eq_ok.mp h
  obtain ⟨⟨_, left, hlq⟩, hq, h⟩ := bind_eq_ok.mp h
  obtain ⟨⟨yes, afterYes, hly⟩, hy, h⟩ := bind_eq_ok.mp h
  obtain ⟨⟨no, afterNo, hln⟩, hn, h⟩ := bind_eq_ok.mp h
  obtain ⟨rfl, rfl⟩ := Prod.mk.inj (Except.ok.inj h)
  have hcondition := readCondition_sound hc
  have hquestion := expect_sound .question (by simp) hq
  have hyes := readValue_sound hy
  have hno := readAlternative_sound hn
  refine ⟨.choice hcondition.kind_eq hcondition.wellFormed hyes.kind_eq hyes.wellFormed
    (fun e he => (hno.1 e he).1) (fun e he => (hno.1 e he).2) ?_, rfl, ?_, hno.2.2⟩
  · intro hne
    have hcolon : (lexemes afterYes).head? = some .colon := by
      rw [hno.2.1]
      exact head?_alternativeSpelling hne
    exact Bool.eq_false_iff.mpr fun ho => hyes.innermost ho hcolon
  · simp [spelling, hcondition.spelled, hquestion, hyes.spelled, hno.2.1]
termination_by (tokens.length, 2)

theorem readAlternative_sound {tokens : List Token} {no : Option Expression}
    {rest : { rest : List Token // rest.length ≤ tokens.length }}
    (h : readAlternative tokens = .ok (no, rest)) :
    (∀ e ∈ no, e.kind = .value ∧ e.WellFormed) ∧
      lexemes tokens = alternativeSpelling no ++ lexemes rest.1 ∧
      (alternativeEndsOpen no = true → (lexemes rest.1).head? ≠ some .colon) := by
  by_cases hcolon : (lexemes tokens).head? = some .colon
  · match tokens, rest, h with
    | ⟨.colon, _⟩ :: ts, rest, h =>
      rw [readAlternative] at h
      obtain ⟨⟨e, left, hl⟩, he, h⟩ := bind_eq_ok.mp h
      obtain ⟨rfl, rfl⟩ := Prod.mk.inj (Except.ok.inj h)
      have hno := readValue_sound he
      refine ⟨?_, by simp [alternativeSpelling, hno.spelled], hno.innermost⟩
      rintro e' ⟨⟩
      exact ⟨hno.kind_eq, hno.wellFormed⟩
  · rw [readAlternative_of_head?_ne hcolon] at h
    obtain ⟨rfl, rfl⟩ := Prod.mk.inj (Except.ok.inj h)
    exact ⟨nofun, rfl, fun _ => hcolon⟩
termination_by (tokens.length, 0)

theorem readArguments_sound {tokens : List Token} {arguments : List Expression}
    {rest : { rest : List Token // rest.length < tokens.length }}
    (h : readArguments tokens = .ok (arguments, rest)) :
    (∀ e ∈ arguments, e.kind = .value ∧ e.WellFormed) ∧
      lexemes tokens = .openParen :: (argumentsSpelling arguments ++ lexemes rest.1) := by
  unfold readArguments at h
  obtain ⟨⟨_, left, hl⟩, hp, h⟩ := bind_eq_ok.mp h
  have hopen := expect_sound .openParen (by simp) hp
  dsimp only at h
  split at h
  · rename_i first left' hlt hf
    obtain ⟨⟨more, left'', hm⟩, hmore, h⟩ := bind_eq_ok.mp h
    obtain ⟨rfl, rfl⟩ := Prod.mk.inj (Except.ok.inj h)
    have hfirst := readValue_sound hf
    have hmore := readMoreArguments_sound hmore
    refine ⟨?_, by simp [argumentsSpelling, hopen, hfirst.spelled, hmore.2]⟩
    intro e he
    rcases List.mem_cons.mp he with rfl | he
    · exact ⟨hfirst.kind_eq, hfirst.wellFormed⟩
    · exact hmore.1 e he
  · simp at h
  · obtain ⟨⟨_, left', hl'⟩, hc, h⟩ := bind_eq_ok.mp h
    obtain ⟨rfl, rfl⟩ := Prod.mk.inj (Except.ok.inj h)
    have hclose := expect_sound .closeParen (by simp) hc
    exact ⟨nofun, by simp [argumentsSpelling, hopen, hclose]⟩
termination_by (tokens.length, 0)

theorem readMoreArguments_sound {tokens : List Token} {arguments : List Expression}
    {rest : { rest : List Token // rest.length < tokens.length }}
    (h : readMoreArguments tokens = .ok (arguments, rest)) :
    (∀ e ∈ arguments, e.kind = .value ∧ e.WellFormed) ∧
      lexemes tokens = moreSpelling arguments ++ lexemes rest.1 := by
  by_cases hcomma : (lexemes tokens).head? = some .comma
  · match tokens, rest, h with
    | ⟨.comma, _⟩ :: ts, rest, h =>
      rw [readMoreArguments] at h
      obtain ⟨⟨next, left, hl⟩, hn, h⟩ := bind_eq_ok.mp h
      obtain ⟨⟨more, left', hl'⟩, hm, h⟩ := bind_eq_ok.mp h
      obtain ⟨rfl, rfl⟩ := Prod.mk.inj (Except.ok.inj h)
      have hnext := readValue_sound hn
      have hmore := readMoreArguments_sound hm
      refine ⟨?_, by simp [moreSpelling, hnext.spelled, hmore.2]⟩
      intro e he
      rcases List.mem_cons.mp he with rfl | he
      · exact ⟨hnext.kind_eq, hnext.wellFormed⟩
      · exact hmore.1 e he
  · rw [readMoreArguments_of_head?_ne hcomma] at h
    obtain ⟨⟨_, left⟩, hc, h⟩ := bind_eq_ok.mp h
    obtain ⟨rfl, rfl⟩ := Prod.mk.inj (Except.ok.inj h)
    have hclose := expect_sound .closeParen (by simp) hc
    exact ⟨nofun, by simp [moreSpelling, hclose]⟩
termination_by (tokens.length, 0)

theorem readCondition_sound {tokens : List Token} {e : Expression}
    {rest : { rest : List Token // rest.length < tokens.length }}
    (h : readCondition tokens = .ok (e, rest)) : Reads .conditional tokens e rest.1 := by
  unfold readCondition at h
  split at h
  · obtain ⟨⟨e, left, hl⟩, ha, h⟩ := bind_eq_ok.mp h
    obtain ⟨rfl, rfl⟩ := Prod.mk.inj (Except.ok.inj h)
    obtain ⟨hw, hk, hs⟩ := readAtom_sound ha
    exact ⟨hw, hk, hs, by simp [endsOpen_of_conditional hk]⟩
  · obtain ⟨hw, hk, hs⟩ := readAtom_sound h
    exact ⟨hw, hk, hs, by simp [endsOpen_of_conditional hk]⟩
termination_by (tokens.length, 1)

theorem readAtom_sound {negated : Bool} {tokens : List Token} {e : Expression}
    {rest : { rest : List Token // rest.length < tokens.length }}
    (h : readAtom negated tokens = .ok (e, rest)) :
    e.WellFormed ∧ e.kind = .conditional ∧
      negation negated ++ lexemes tokens = e.spelling ++ lexemes rest.1 := by
  match tokens, rest, h with
  | [], _, h => simp [readAtom] at h
  | t :: ts, rest, h =>
    unfold readAtom at h
    dsimp only at h
    split at h
    · rename_i name ht
      obtain ⟨⟨chain, left, hl⟩, hc, h⟩ := bind_eq_ok.mp h
      obtain ⟨rfl, rfl⟩ := Prod.mk.inj (Except.ok.inj h)
      obtain ⟨hw, hs⟩ := readChain_sound hc
      refine ⟨.existence (fun l hl => (hw l hl).1) fun l hl => (hw l hl).2, rfl, ?_⟩
      simp [spelling, ht, hs]
    · rename_i k ht
      obtain ⟨⟨arguments, left, hl⟩, ha, h⟩ := bind_eq_ok.mp h
      obtain ⟨_, harity, h⟩ := bind_eq_ok.mp h
      obtain ⟨⟨chain, left', hl'⟩, hc, h⟩ := bind_eq_ok.mp h
      obtain ⟨rfl, rfl⟩ := Prod.mk.inj (Except.ok.inj h)
      obtain ⟨hargs, hs⟩ := readArguments_sound ha
      obtain ⟨hw, hsc⟩ := readChain_sound hc
      refine ⟨.check (checkArity_eq_ok.mp harity) (fun e he => (hargs e he).1)
        (fun e he => (hargs e he).2) (fun l hl => (hw l hl).1) fun l hl => (hw l hl).2, rfl, ?_⟩
      simp [spelling, ht, hs, hsc]
    · simp at h
termination_by (tokens.length, 0)

theorem readChain_sound {tokens : List Token} {chain : Option (Connective × Expression)}
    {rest : { rest : List Token // rest.length ≤ tokens.length }}
    (h : readChain tokens = .ok (chain, rest)) :
    (∀ link ∈ chain, link.2.kind = .conditional ∧ link.2.WellFormed) ∧
      lexemes tokens = chainSpelling chain ++ lexemes rest.1 := by
  unfold readChain at h
  split at h
  · obtain ⟨⟨e, left, hl⟩, he, h⟩ := bind_eq_ok.mp h
    obtain ⟨rfl, rfl⟩ := Prod.mk.inj (Except.ok.inj h)
    have hright := readCondition_sound he
    refine ⟨?_, by simp [chainSpelling, Connective.lexeme, hright.spelled]⟩
    rintro link ⟨⟩
    exact ⟨hright.kind_eq, hright.wellFormed⟩
  · obtain ⟨⟨e, left, hl⟩, he, h⟩ := bind_eq_ok.mp h
    obtain ⟨rfl, rfl⟩ := Prod.mk.inj (Except.ok.inj h)
    have hright := readCondition_sound he
    refine ⟨?_, by simp [chainSpelling, Connective.lexeme, hright.spelled]⟩
    rintro link ⟨⟩
    exact ⟨hright.kind_eq, hright.wellFormed⟩
  · obtain ⟨rfl, rfl⟩ := Prod.mk.inj (Except.ok.inj h)
    exact ⟨nofun, by simp [chainSpelling]⟩
termination_by (tokens.length, 0)

end

theorem whole_eq_ok {tokens : List Token} {r : Reading Expression tokens} {e : Expression} :
    whole r = .ok e ↔ ∃ hl, r = .ok (e, ⟨[], hl⟩) := by
  constructor
  · intro h
    unfold whole at h
    split at h
    · simp at h
    · obtain rfl := Except.ok.inj h
      exact ⟨_, rfl⟩
    · simp at h
  · rintro ⟨hl, rfl⟩
    rfl

/-- The tokens of a text are those of the tree that it is parsed to. -/
theorem parse_sound {t : Text} {e : Expression} (h : parse t = .ok e) :
    e.WellFormed ∧ ∃ ts, Token.ofText t = .ok ts ∧ lexemes ts = e.spelling := by
  obtain ⟨ts, ht, h⟩ := bind_eq_ok.mp h
  have hts : Token.ofText t = .ok ts := mapError_eq_ok.mp ht
  split at h
  · rename_i hv
    obtain ⟨hl, hr⟩ := whole_eq_ok.mp hv
    obtain rfl := Except.ok.inj h
    have hsound := readValue_sound hr
    exact ⟨hsound.wellFormed, ts, hts, by simpa using hsound.spelled⟩
  · rename_i hc
    obtain ⟨hl, hr⟩ := whole_eq_ok.mp hc
    obtain rfl := Except.ok.inj h
    have hsound := readCondition_sound hr
    exact ⟨hsound.wellFormed, ts, hts, by simpa using hsound.spelled⟩
  · simp at h

end Countermand.Expression

import Countermand.Proofs.Expression.Miscalls
import Countermand.Proofs.Expression.Sentences

/-! Errors of the parser point at what is in the way. Whatever a reader has taken when it fails can
be completed to an expression by a token of the kind that it looked for, so that no other reading of
these tokens could have gone further. -/
namespace Countermand.Expression
open Results

theorem expect_suffix {goal : TokenKind} {tokens : List Token} {a : Unit}
    {rest : { rest : List Token // rest.length < tokens.length }}
    (h : expect goal tokens = .ok (a, rest)) : rest.1 <:+ tokens := by
  cases tokens with
  | nil => simp [expect] at h
  | cons t ts =>
    simp only [expect] at h
    split at h
    · obtain ⟨-, rfl⟩ := Prod.mk.inj (Except.ok.inj h)
      exact List.suffix_cons t ts
    · simp at h

theorem readAccessor_suffix {tokens : List Token} {e : Expression}
    {rest : { rest : List Token // rest.length < tokens.length }}
    (h : readAccessor tokens = .ok (e, rest)) : rest.1 <:+ tokens := by
  unfold readAccessor at h
  split at h
  · simp at h
  · split at h
    · split at h
      · obtain ⟨-, rfl⟩ := Prod.mk.inj (Except.ok.inj h)
        exact (List.suffix_cons _ _).trans (List.suffix_cons _ _)
      · obtain ⟨-, rfl⟩ := Prod.mk.inj (Except.ok.inj h)
        exact List.suffix_cons _ _
    · simp at h

mutual

theorem readValue_suffix {tokens : List Token} {e : Expression}
    {rest : { rest : List Token // rest.length < tokens.length }}
    (h : readValue tokens = .ok (e, rest)) : rest.1 <:+ tokens := by
  match tokens, rest, h with
  | [], _, h => simp [readValue] at h
  | t :: ts, rest, h =>
    unfold readValue at h
    dsimp only at h
    split at h
    · obtain ⟨⟨arguments, left, hl⟩, ha, h⟩ := bind_eq_ok.mp h
      obtain ⟨e, -, h⟩ := bind_eq_ok.mp h
      obtain ⟨-, rfl⟩ := Prod.mk.inj (Except.ok.inj h)
      exact (readArguments_suffix ha).trans (List.suffix_cons t ts)
    · obtain ⟨-, rfl⟩ := Prod.mk.inj (Except.ok.inj h)
      exact List.suffix_cons t ts
    · obtain ⟨-, rfl⟩ := Prod.mk.inj (Except.ok.inj h)
      exact List.suffix_cons t ts
    · obtain ⟨⟨e, left, hl⟩, ha, h⟩ := bind_eq_ok.mp h
      obtain ⟨-, rfl⟩ := Prod.mk.inj (Except.ok.inj h)
      exact (readAccessor_suffix ha).trans (List.suffix_cons t ts)
    · exact readChoice_suffix h
    · exact readChoice_suffix h
    · exact readChoice_suffix h
    · simp at h
termination_by (tokens.length, 3)

theorem readChoice_suffix {tokens : List Token} {e : Expression}
    {rest : { rest : List Token // rest.length < tokens.length }}
    (h : readChoice tokens = .ok (e, rest)) : rest.1 <:+ tokens := by
  unfold readChoice at h
  obtain ⟨⟨condition, afterCondition, hlc⟩, hc, h⟩ := bind_eq_ok.mp h
  obtain ⟨⟨_, left, hlq⟩, hq, h⟩ := bind_eq_ok.mp h
  obtain ⟨⟨yes, afterYes, hly⟩, hy, h⟩ := bind_eq_ok.mp h
  obtain ⟨⟨no, afterNo, hln⟩, hn, h⟩ := bind_eq_ok.mp h
  obtain ⟨-, rfl⟩ := Prod.mk.inj (Except.ok.inj h)
  exact (readAlternative_suffix hn).trans ((readValue_suffix hy).trans
    ((expect_suffix hq).trans (readCondition_suffix hc)))
termination_by (tokens.length, 2)

theorem readAlternative_suffix {tokens : List Token} {no : Option Expression}
    {rest : { rest : List Token // rest.length ≤ tokens.length }}
    (h : readAlternative tokens = .ok (no, rest)) : rest.1 <:+ tokens := by
  unfold readAlternative at h
  split at h
  · obtain ⟨⟨e, left, hl⟩, he, h⟩ := bind_eq_ok.mp h
    obtain ⟨-, rfl⟩ := Prod.mk.inj (Except.ok.inj h)
    exact (readValue_suffix he).trans (List.suffix_cons _ _)
  · obtain ⟨-, rfl⟩ := Prod.mk.inj (Except.ok.inj h)
    exact List.suffix_refl _
termination_by (tokens.length, 0)

theorem readArguments_suffix {tokens : List Token} {arguments : List Expression}
    {rest : { rest : List Token // rest.length < tokens.length }}
    (h : readArguments tokens = .ok (arguments, rest)) : rest.1 <:+ tokens := by
  unfold readArguments at h
  obtain ⟨⟨_, left, hl⟩, hp, h⟩ := bind_eq_ok.mp h
  dsimp only at h
  split at h
  · rename_i first left' hlt hf
    obtain ⟨⟨more, left'', hm⟩, hmore, h⟩ := bind_eq_ok.mp h
    obtain ⟨-, rfl⟩ := Prod.mk.inj (Except.ok.inj h)
    exact (readMoreArguments_suffix hmore).trans
      ((readValue_suffix hf).trans (expect_suffix hp))
  · simp at h
  · obtain ⟨⟨_, left', hl'⟩, hc, h⟩ := bind_eq_ok.mp h
    obtain ⟨-, rfl⟩ := Prod.mk.inj (Except.ok.inj h)
    exact (expect_suffix hc).trans (expect_suffix hp)
termination_by (tokens.length, 0)

theorem readMoreArguments_suffix {tokens : List Token} {arguments : List Expression}
    {rest : { rest : List Token // rest.length < tokens.length }}
    (h : readMoreArguments tokens = .ok (arguments, rest)) : rest.1 <:+ tokens := by
  by_cases hcomma : (lexemes tokens).head? = some .comma
  · match tokens, rest, h with
    | ⟨.comma, _⟩ :: ts, rest, h =>
      rw [readMoreArguments] at h
      obtain ⟨⟨next, left, hl⟩, hn, h⟩ := bind_eq_ok.mp h
      obtain ⟨⟨more, left', hl'⟩, hm, h⟩ := bind_eq_ok.mp h
      obtain ⟨-, rfl⟩ := Prod.mk.inj (Except.ok.inj h)
      exact (readMoreArguments_suffix hm).trans
        ((readValue_suffix hn).trans (List.suffix_cons _ _))
  · rw [readMoreArguments_of_head?_ne hcomma] at h
    obtain ⟨⟨_, left⟩, hc, h⟩ := bind_eq_ok.mp h
    obtain ⟨-, rfl⟩ := Prod.mk.inj (Except.ok.inj h)
    exact expect_suffix hc
termination_by (tokens.length, 0)

theorem readCondition_suffix {tokens : List Token} {e : Expression}
    {rest : { rest : List Token // rest.length < tokens.length }}
    (h : readCondition tokens = .ok (e, rest)) : rest.1 <:+ tokens := by
  unfold readCondition at h
  split at h
  · obtain ⟨⟨e, left, hl⟩, ha, h⟩ := bind_eq_ok.mp h
    obtain ⟨-, rfl⟩ := Prod.mk.inj (Except.ok.inj h)
    exact (readAtom_suffix ha).trans (List.suffix_cons _ _)
  · exact readAtom_suffix h
termination_by (tokens.length, 1)

theorem readAtom_suffix {negated : Bool} {tokens : List Token} {e : Expression}
    {rest : { rest : List Token // rest.length < tokens.length }}
    (h : readAtom negated tokens = .ok (e, rest)) : rest.1 <:+ tokens := by
  match tokens, rest, h with
  | [], _, h => simp [readAtom] at h
  | t :: ts, rest, h =>
    unfold readAtom at h
    dsimp only at h
    split at h
    · obtain ⟨⟨chain, left, hl⟩, hc, h⟩ := bind_eq_ok.mp h
      obtain ⟨-, rfl⟩ := Prod.mk.inj (Except.ok.inj h)
      exact (readChain_suffix hc).trans (List.suffix_cons t ts)
    · obtain ⟨⟨arguments, left, hl⟩, ha, h⟩ := bind_eq_ok.mp h
      obtain ⟨_, -, h⟩ := bind_eq_ok.mp h
      obtain ⟨⟨chain, left', hl'⟩, hc, h⟩ := bind_eq_ok.mp h
      obtain ⟨-, rfl⟩ := Prod.mk.inj (Except.ok.inj h)
      exact (readChain_suffix hc).trans ((readArguments_suffix ha).trans (List.suffix_cons t ts))
    · simp at h
termination_by (tokens.length, 0)

theorem readChain_suffix {tokens : List Token} {chain : Option (Connective × Expression)}
    {rest : { rest : List Token // rest.length ≤ tokens.length }}
    (h : readChain tokens = .ok (chain, rest)) : rest.1 <:+ tokens := by
  unfold readChain at h
  split at h
  · obtain ⟨⟨e, left, hl⟩, he, h⟩ := bind_eq_ok.mp h
    obtain ⟨-, rfl⟩ := Prod.mk.inj (Except.ok.inj h)
    exact (readCondition_suffix he).trans (List.suffix_cons _ _)
  · obtain ⟨⟨e, left, hl⟩, he, h⟩ := bind_eq_ok.mp h
    obtain ⟨-, rfl⟩ := Prod.mk.inj (Except.ok.inj h)
    exact (readCondition_suffix he).trans (List.suffix_cons _ _)
  · obtain ⟨-, rfl⟩ := Prod.mk.inj (Except.ok.inj h)
    exact List.suffix_refl _
termination_by (tokens.length, 0)

end

theorem lexemes_append (ts us : List Token) : lexemes (ts ++ us) = lexemes ts ++ lexemes us :=
  List.map_append

theorem exists_used {tokens rest : List Token} {ls : List Lexeme} (hs : rest <:+ tokens)
    (hl : lexemes tokens = ls ++ lexemes rest) :
    ∃ used, used ++ rest = tokens ∧ lexemes used = ls := by
  obtain ⟨used, rfl⟩ := hs
  rw [lexemes_append] at hl
  exact ⟨used, rfl, List.append_cancel_right hl⟩

theorem Obstacle.behind {L A B : Language Lexeme} {front rest tokens : List Token}
    {ls : List Lexeme} {fault : ParseError} (ha : Admits L (lexemes front) A)
    (hA : Admits A ls B) (hs : rest <:+ tokens) (hl : lexemes tokens = ls ++ lexemes rest)
    (h : ∀ used, Admits L (lexemes (front ++ used)) B → Obstacle L (front ++ used ++ rest) fault) :
    Obstacle L (front ++ tokens) fault := by
  obtain ⟨used, rfl, rfl⟩ := exists_used hs hl
  rw [← List.append_assoc]
  refine h used ?_
  rw [lexemes_append]
  exact ha.trans hA

theorem Obstacle.of_call (callee : Callee) {L : Language Lexeme} {front ts rest : List Token}
    {t : Token} {arguments : List Expression} (ht : t.lexeme = callee.lexeme)
    (ha : (∀ e ∈ arguments, e.kind = .value ∧ e.WellFormed) ∧
      lexemes ts = .openParen :: (argumentsSpelling arguments ++ lexemes rest))
    (hne : arguments.length ≠ callee.arity) :
    Obstacle L (front ++ t :: ts)
      (.argumentCount callee.name callee.arity arguments.length) := by
  refine .miscalled (forall_isPhrase ha.1) ⟨lexemes front, lexemes rest, ?_⟩ hne
  simp [lexemes_append, Callee.calling, ht, ha.2]

theorem callOperation_eq_error {op : Operation} {arguments : List Expression} {fault : ParseError}
    (h : callOperation op arguments = .error fault) :
    arguments.length ≠ op.arity ∧ .argumentCount op.name op.arity arguments.length = fault := by
  rcases bind_eq_error.mp h with h | ⟨_, _, h⟩
  · exact checkArity_eq_error.mp h
  · simp at h

theorem readAccessor_obstacle {L : Language Lexeme} {front tokens : List Token} {fault : ParseError}
    (h : readAccessor tokens = .error fault) (ha : Admits L (lexemes front) accessors) :
    Obstacle L (front ++ tokens) fault := by
  unfold readAccessor at h
  split at h
  · obtain rfl := Except.error.inj h
    exact ha.ended access_mem (List.forall_mem_singleton.mpr isValid_word)
  · split at h
    · split at h <;> simp at h
    · obtain rfl := Except.error.inj h
      exact ha.unexpected access_mem (List.forall_mem_singleton.mpr isValid_word) _ _

mutual

/-- What a reader stops at is an obstacle wherever it reads. -/
theorem readValue_obstacle {L : Language Lexeme} {front tokens : List Token} {fault : ParseError}
    (h : readValue tokens = .error fault) (ha : Admits L (lexemes front) (phrases .value)) :
    Obstacle L (front ++ tokens) fault := by
  match tokens, h with
  | [], h =>
    rw [readValue] at h
    obtain rfl := Except.error.inj h
    exact ha.ended literal_mem (List.forall_mem_singleton.mpr isValid_literal)
  | t :: ts, h =>
    unfold readValue at h
    dsimp only at h
    split at h
    · rename_i op ht
      rcases bind_eq_error.mp h with h | ⟨⟨arguments, left, hl⟩, hargs, h⟩
      · exact .behind ha (admits_operation op) (List.suffix_cons t ts) (by simp [ht])
          fun _ => readArguments_obstacle h
      · rcases bind_eq_error.mp h with h | ⟨_, _, h⟩
        · obtain ⟨hne, rfl⟩ := callOperation_eq_error h
          exact .of_call (.operation op) ht (readArguments_sound hargs) hne
        · simp at h
    · simp at h
    · simp at h
    · rename_i ht
      rcases bind_eq_error.mp h with h | ⟨_, _, h⟩
      · exact .behind ha admits_dollar (List.suffix_cons t ts) (by simp [ht])
          fun _ => readAccessor_obstacle h
      · simp at h
    · exact readChoice_obstacle h ha
    · exact readChoice_obstacle h ha
    · exact readChoice_obstacle h ha
    · obtain rfl := Except.error.inj h
      exact ha.unexpected call_mem valid_call t ts
termination_by (tokens.length, 3)

theorem readChoice_obstacle {L : Language Lexeme} {front tokens : List Token} {fault : ParseError}
    (h : readChoice tokens = .error fault) (ha : Admits L (lexemes front) (phrases .value)) :
    Obstacle L (front ++ tokens) fault := by
  unfold readChoice at h
  rcases bind_eq_error.mp h with h | ⟨⟨condition, afterCondition, hlc⟩, hc, h⟩
  · exact .behind ha admits_condition (List.suffix_refl _) rfl fun _ => readCondition_obstacle h
  have hcondition := readCondition_sound hc
  have hsc := readCondition_suffix hc
  rcases bind_eq_error.mp h with h | ⟨⟨_, left, hlq⟩, hq, h⟩
  · exact .behind ha (admits_question hcondition.isPhrase) hsc hcondition.spelled
      fun _ ha => expect_obstacle .question h ha rfl valid_choice
  have hquestion := expect_sound .question (by simp) hq
  have hsq := (expect_suffix hq).trans hsc
  rcases bind_eq_error.mp h with h | ⟨⟨yes, afterYes, hly⟩, hy, h⟩
  · exact .behind ha (admits_yes hcondition.isPhrase) hsq
      (by simp [hcondition.spelled, hquestion]) fun _ => readValue_obstacle h
  have hyes := readValue_sound hy
  rcases bind_eq_error.mp h with h | ⟨_, _, h⟩
  · exact .behind ha (admits_alternative hcondition.isPhrase hyes.isPhrase)
      ((readValue_suffix hy).trans hsq) (by simp [hcondition.spelled, hquestion, hyes.spelled])
      fun _ => readAlternative_obstacle h
  · simp at h
termination_by (tokens.length, 2)

theorem readAlternative_obstacle {L : Language Lexeme} {front tokens : List Token}
    {fault : ParseError} (h : readAlternative tokens = .error fault)
    (ha : Admits L (lexemes front) alternatives) : Obstacle L (front ++ tokens) fault := by
  unfold readAlternative at h
  split at h
  · rcases bind_eq_error.mp h with h | ⟨_, _, h⟩
    · exact .behind ha admits_no (List.suffix_cons _ _) rfl fun _ => readValue_obstacle h
    · simp at h
  · simp at h
termination_by (tokens.length, 0)

theorem readArguments_obstacle {L : Language Lexeme} {front tokens : List Token}
    {fault : ParseError} (h : readArguments tokens = .error fault)
    (ha : Admits L (lexemes front) argumentLists) : Obstacle L (front ++ tokens) fault := by
  unfold readArguments at h
  rcases bind_eq_error.mp h with h | ⟨⟨_, left, hl⟩, hp, h⟩
  · exact expect_obstacle .openParen h ha empty_mem (by simp [Lexeme.IsValid])
  have hopen := expect_sound .openParen (by simp) hp
  have hs := expect_suffix hp
  dsimp only at h
  split at h
  · rename_i first left' hlt hf
    have hfirst := readValue_sound hf
    rcases bind_eq_error.mp h with h | ⟨_, _, h⟩
    · exact .behind ha (admits_further hfirst.isPhrase) ((readValue_suffix hf).trans hs)
        (by simp [hopen, hfirst.spelled]) fun _ => readMoreArguments_obstacle h
    · simp at h
  · rename_i hf
    obtain rfl := Except.error.inj h
    exact .behind ha admits_first hs hopen fun _ => readValue_obstacle hf
  · rcases bind_eq_error.mp h with h | ⟨_, _, h⟩
    · exact .behind ha admits_close hs hopen
        fun _ ha => expect_obstacle .closeParen h ha rfl valid_close
    · simp at h
termination_by (tokens.length, 0)

theorem readMoreArguments_obstacle {L : Language Lexeme} {front tokens : List Token}
    {fault : ParseError} (h : readMoreArguments tokens = .error fault)
    (ha : Admits L (lexemes front) furtherArguments) : Obstacle L (front ++ tokens) fault := by
  by_cases hcomma : (lexemes tokens).head? = some .comma
  · match tokens, h with
    | ⟨.comma, _⟩ :: ts, h =>
      rw [readMoreArguments] at h
      rcases bind_eq_error.mp h with h | ⟨⟨next, left, hl⟩, hn, h⟩
      · exact .behind ha admits_next (List.suffix_cons _ _) rfl fun _ => readValue_obstacle h
      have hnext := readValue_sound hn
      rcases bind_eq_error.mp h with h | ⟨_, _, h⟩
      · exact .behind ha (admits_more hnext.isPhrase)
          ((readValue_suffix hn).trans (List.suffix_cons _ _)) (by simp [hnext.spelled])
          fun _ => readMoreArguments_obstacle h
      · simp at h
  · rw [readMoreArguments_of_head?_ne hcomma] at h
    rcases bind_eq_error.mp h with h | ⟨_, _, h⟩
    · exact expect_obstacle .closeParen h ha close_mem valid_close
    · simp at h
termination_by (tokens.length, 0)

theorem readCondition_obstacle {L : Language Lexeme} {front tokens : List Token}
    {fault : ParseError} (h : readCondition tokens = .error fault)
    (ha : Admits L (lexemes front) (phrases .conditional)) :
    Obstacle L (front ++ tokens) fault := by
  unfold readCondition at h
  split at h
  · rcases bind_eq_error.mp h with h | ⟨_, _, h⟩
    · exact .behind ha (admits_atom true) (List.suffix_cons _ _) rfl fun _ => readAtom_obstacle h
    · simp at h
  · exact .behind ha (admits_atom false) (List.suffix_refl _) rfl fun _ => readAtom_obstacle h
termination_by (tokens.length, 1)

theorem readAtom_obstacle {L : Language Lexeme} {front tokens : List Token} {negated : Bool}
    {fault : ParseError} (h : readAtom negated tokens = .error fault)
    (ha : Admits L (lexemes front) (atoms negated)) : Obstacle L (front ++ tokens) fault := by
  match tokens, h with
  | [], h =>
    rw [readAtom] at h
    obtain rfl := Except.error.inj h
    exact ha.ended (word_mem negated) (List.forall_mem_singleton.mpr isValid_word)
  | t :: ts, h =>
    unfold readAtom at h
    dsimp only at h
    split at h
    · rename_i name ht
      rcases bind_eq_error.mp h with h | ⟨_, _, h⟩
      · exact .behind ha (admits_chain negated name) (List.suffix_cons t ts) (by simp [ht])
          fun _ => readChain_obstacle h
      · simp at h
    · rename_i k ht
      rcases bind_eq_error.mp h with h | ⟨⟨arguments, left, hl⟩, hargs, h⟩
      · exact .behind ha (admits_checked negated k) (List.suffix_cons t ts) (by simp [ht])
          fun _ => readArguments_obstacle h
      have ha' := readArguments_sound hargs
      rcases bind_eq_error.mp h with h | ⟨_, _, h⟩
      · obtain ⟨hne, rfl⟩ := checkArity_eq_error.mp h
        exact .of_call (.check k) ht ha' hne
      rcases bind_eq_error.mp h with h | ⟨_, _, h⟩
      · exact .behind ha (admits_checkChain negated k (forall_isPhrase ha'.1))
          ((readArguments_suffix hargs).trans (List.suffix_cons t ts))
          (by simp [ht, ha'.2, Callee.calling, Callee.lexeme]) fun _ => readChain_obstacle h
      · simp at h
    · obtain rfl := Except.error.inj h
      exact ha.unexpected (word_mem negated) (List.forall_mem_singleton.mpr isValid_word) t ts
termination_by (tokens.length, 0)

theorem readChain_obstacle {L : Language Lexeme} {front tokens : List Token}
    {fault : ParseError} (h : readChain tokens = .error fault)
    (ha : Admits L (lexemes front) chains) : Obstacle L (front ++ tokens) fault := by
  unfold readChain at h
  split at h
  · rcases bind_eq_error.mp h with h | ⟨_, _, h⟩
    · exact .behind ha (admits_link .and) (List.suffix_cons _ _) rfl
        fun _ => readCondition_obstacle h
    · simp at h
  · rcases bind_eq_error.mp h with h | ⟨_, _, h⟩
    · exact .behind ha (admits_link .or) (List.suffix_cons _ _) rfl
        fun _ => readCondition_obstacle h
    · simp at h
  · simp at h
termination_by (tokens.length, 0)

end

theorem whole_readValue_obstacle {ts : List Token} {fault : ParseError}
    (h : whole (readValue ts) = .error fault) : Obstacle sentences ts fault := by
  unfold whole at h
  split at h
  · rename_i e hr
    obtain rfl := Except.error.inj h
    have hvalue : Obstacle sentences ([] ++ ts) e := readValue_obstacle hr admits_sentence
    exact hvalue
  · simp at h
  · rename_i e found rest hl hr
    obtain rfl := Except.error.inj h
    have hvalue := readValue_sound hr
    obtain ⟨front, hfront, hused⟩ := exists_used (readValue_suffix hr) hvalue.spelled
    exact .trailing hfront.symm ⟨e, hvalue.wellFormed.derived False, hused.symm⟩

theorem parse_obstacle {t : Text} {ts : List Token} (ht : Token.ofText t = .ok ts)
    {fault : ParseError} (h : parse t = .error fault) : Obstacle sentences ts fault := by
  rw [parse, tokens_eq ht, ok_bind] at h
  split at h
  · simp at h
  · simp at h
  · rename_i hv _
    obtain rfl := Except.error.inj h
    exact whole_readValue_obstacle hv

/-- Parse errors point at a real obstacle; and if only arities are wrong, the error is about the
wrong call whose closing parenthesis comes first. -/
theorem parse_error_obstacle {t : Text} {ts : List Token} (ht : Token.ofText t = .ok ts) :
    (∀ fault, parse t = .error fault → Obstacle sentences ts fault) ∧
      ∀ e : Expression, e.Grammatical → lexemes ts = e.spelling →
        (∃ call ∈ e.callsFrom 0, call.IsMiscalled) →
        ∃ first ∈ e.callsFrom 0, first.IsMiscalled ∧ first.StandsIn 0 (lexemes ts) ∧
          (∀ other ∈ e.callsFrom 0, other.IsMiscalled → other ≠ first →
            first.closing < other.closing) ∧
          parse t = .error first.fault := by
  refine ⟨fun fault h => parse_obstacle ht h, fun e hg hs hc => ?_⟩
  obtain ⟨first, hmem, hwrong, hleast, hparse⟩ := parse_of_miscall ht hg hs hc
  exact ⟨first, hmem, hwrong, hs ▸ standsIn_of_mem_callsFrom hmem, hleast, hparse⟩

/-- Three calls of the wrong arity, of which the first one is closed first. -/
def miscalledJoin : Expression :=
  .operation .join [.operation .dirname [], .literal ['a'], .operation .env []]

def miscalledTokens : List Token := [
  ⟨.operation .join, 1⟩, ⟨.openParen, 5⟩, ⟨.operation .dirname, 6⟩, ⟨.openParen, 13⟩,
  ⟨.closeParen, 14⟩, ⟨.comma, 15⟩, ⟨.literal ['a'], 17⟩, ⟨.comma, 20⟩, ⟨.operation .env, 22⟩,
  ⟨.openParen, 25⟩, ⟨.closeParen, 26⟩, ⟨.closeParen, 27⟩]

theorem ofText_miscalledTokens :
    Token.ofText "join(dirname(), 'a', env())".toList = .ok miscalledTokens := by
  with_unfolding_all rfl

theorem isPhrase_miscalledJoin : miscalledJoin.IsPhrase .value := by
  have hempty (op : Operation) : IsPhrase .value (.operation op []) :=
    isPhrase_operation op (List.forall_mem_nil _)
  refine isPhrase_operation .join ?_
  simp only [List.forall_mem_cons]
  exact ⟨hempty .dirname, ⟨.literal, rfl⟩, hempty .env, List.forall_mem_nil _⟩

theorem parse_error_obstacle_join :
    Token.ofText "join(dirname(), 'a', env())".toList = .ok miscalledTokens ∧
      miscalledJoin.Grammatical ∧ lexemes miscalledTokens = miscalledJoin.spelling ∧
      miscalledJoin.callsFrom 0 =
        [⟨.operation .dirname, 0, 5⟩, ⟨.operation .env, 0, 11⟩, ⟨.operation .join, 3, 12⟩] ∧
      parse "join(dirname(), 'a', env())".toList =
        .error (.argumentCount Operation.dirname.name 1 0) ∧
      Obstacle sentences miscalledTokens (.argumentCount Operation.dirname.name 1 0) := by
  obtain ⟨herror, hfirst⟩ := parse_error_obstacle ofText_miscalledTokens
  have hs : lexemes miscalledTokens = miscalledJoin.spelling := by decide
  have hcalls : miscalledJoin.callsFrom 0 =
    [⟨.operation .dirname, 0, 5⟩, ⟨.operation .env, 0, 11⟩, ⟨.operation .join, 3, 12⟩] := by decide
  have hwrong : (⟨.operation .dirname, 0, 5⟩ : PlacedCall).IsMiscalled := by decide
  obtain ⟨first, hmem, -, -, hleast, hparse⟩ := hfirst miscalledJoin isPhrase_miscalledJoin.1 hs
    ⟨_, by simp [hcalls], hwrong⟩
  have hdirname : first = ⟨.operation .dirname, 0, 5⟩ := by
    by_contra hne
    have := hleast _ (by simp [hcalls]) hwrong (Ne.symm hne)
    simp only [hcalls, List.mem_cons, List.not_mem_nil, or_false] at hmem
    rcases hmem with rfl | rfl | rfl <;> simp_all
  rw [hdirname] at hparse
  exact ⟨ofText_miscalledTokens, isPhrase_miscalledJoin.1, hs, hcalls, hparse, herror _ hparse⟩

end Countermand.Expression

import Countermand.Proofs.Expression.Soundness

/-! A well formed tree is read again wherever its tokens stand, as long as what follows cannot be
taken for a part of it. With soundness, the parser accepts exactly the grammar. -/
namespace Countermand.Expression
open Results

def followers : ExpressionKind → List Lexeme
  | .value => [.comma, .closeParen, .colon]
  | .conditional => [.question]

/-- No token of the rest would be taken for a part of the expression. -/
structure MayPrecede (e : Expression) (rest : List Lexeme) : Prop where
  follows : ∀ x ∈ rest.head?, x ∈ followers e.kind
  innermost : e.endsOpen = true → rest.head? ≠ some .colon

def read : ExpressionKind → (tokens : List Token) → Reading Expression tokens
  | .value => readValue
  | .conditional => readCondition

/-- The expression is read again wherever it is written. -/
def ReadBack (e : Expression) : Prop :=
  ∀ tokens rest, lexemes tokens = e.spelling ++ rest → e.MayPrecede rest →
    ∃ left hl, read e.kind tokens = .ok (e, ⟨left, hl⟩) ∧ lexemes left = rest

theorem mayPrecede_moreSpelling {e : Expression} (h : e.kind = .value)
    {more : List Expression} {rest : List Lexeme} :
    e.MayPrecede (moreSpelling more ++ rest) := by
  cases more <;> exact ⟨by simp [h, moreSpelling, followers], by simp [moreSpelling]⟩

theorem mayPrecede_alternativeSpelling {condition yes : Expression} {no : Option Expression}
    {rest : List Lexeme} (hk : yes.kind = .value) (hi : no ≠ none → yes.endsOpen = false)
    (h : (choice condition yes no).MayPrecede rest) :
    yes.MayPrecede (alternativeSpelling no ++ rest) := by
  cases no with
  | none =>
    refine ⟨?_, fun _ => h.innermost rfl⟩
    rw [hk]
    exact h.follows
  | some e =>
    exact ⟨by simp [hk, alternativeSpelling, followers], by simp [hi]⟩

theorem ne_nil_of_arity {arguments : List Expression} {arity : Nat}
    (h : arguments.length = arity) (hpos : 0 < arity) : arguments ≠ [] :=
  List.ne_nil_of_length_pos (h ▸ hpos)

theorem readAccessor_complete {name : Text} {spread : Spread} (hs : spread.IsWritten)
    {tokens : List Token} {rest : List Lexeme}
    (ht : lexemes tokens = .word name :: (spread.spelling ++ rest))
    (hr : rest.head? ≠ some .ellipsis) :
    ∃ left hl, readAccessor tokens = .ok (.access name spread, ⟨left, hl⟩) ∧
      lexemes left = rest := by
  obtain ⟨column, ts, rfl, hts⟩ := exists_of_lexemes_eq_cons ht
  rcases hs with rfl | rfl
  · have hts : lexemes ts = rest := hts
    have hne : (lexemes ts).head? ≠ some .ellipsis := hts ▸ hr
    refine ⟨ts, by simp, ?_, hts⟩
    simp only [readAccessor]
    split
    · exact absurd rfl hne
    · rfl
  · obtain ⟨_, left, rfl, hleft⟩ := exists_of_lexemes_eq_cons hts
    exact ⟨left, by simp only [List.length_cons]; omega, by simp [readAccessor], hleft⟩

theorem readMoreArguments_complete {arguments : List Expression}
    (hr : ∀ e ∈ arguments, e.kind = .value ∧ e.ReadBack) {tokens : List Token}
    {rest : List Lexeme} (ht : lexemes tokens = moreSpelling arguments ++ rest) :
    ∃ left hl, readMoreArguments tokens = .ok (arguments, ⟨left, hl⟩) ∧ lexemes left = rest := by
  induction arguments generalizing tokens with
  | nil =>
    obtain ⟨left, hl, he, hleft⟩ := expect_lexeme ht
    refine ⟨left, hl, ?_, hleft⟩
    rw [readMoreArguments_of_head?_ne (by simp [ht, moreSpelling])]
    exact bind_eq_ok.mpr ⟨_, he, rfl⟩
  | cons next more ih =>
    rw [moreSpelling, List.cons_append, List.append_assoc] at ht
    obtain ⟨_, ts, rfl, hts⟩ := exists_of_lexemes_eq_cons ht
    obtain ⟨hk, hnext⟩ := hr next (by simp)
    obtain ⟨left, hl, he, hleft⟩ := hnext ts _ hts (mayPrecede_moreSpelling hk)
    obtain ⟨left', hl', hmore, hleft'⟩ := ih (fun e he => hr e (List.mem_cons_of_mem _ he)) hleft
    rw [hk] at he
    refine ⟨left', by simp only [List.length_cons]; omega, ?_, hleft'⟩
    rw [readMoreArguments]
    exact bind_eq_ok.mpr ⟨_, he, bind_eq_ok.mpr ⟨_, hmore, rfl⟩⟩

theorem readArguments_complete {arguments : List Expression} (hne : arguments ≠ [])
    (hr : ∀ e ∈ arguments, e.kind = .value ∧ e.ReadBack) {tokens : List Token}
    {rest : List Lexeme}
    (ht : lexemes tokens = .openParen :: (argumentsSpelling arguments ++ rest)) :
    ∃ left hl, readArguments tokens = .ok (arguments, ⟨left, hl⟩) ∧ lexemes left = rest := by
  obtain ⟨first, more, rfl⟩ := List.exists_cons_of_ne_nil hne
  obtain ⟨left, hl, ho, hleft⟩ := expect_lexeme ht
  obtain ⟨hk, hfirst⟩ := hr first (by simp)
  rw [argumentsSpelling, List.append_assoc] at hleft
  obtain ⟨left', hl', he, hleft'⟩ := hfirst left _ hleft (mayPrecede_moreSpelling hk)
  rw [hk] at he
  obtain ⟨left'', hl'', hmore, hleft''⟩ :=
    readMoreArguments_complete (fun e he => hr e (List.mem_cons_of_mem _ he)) hleft'
  refine ⟨left'', by omega, ?_, hleft''⟩
  rw [readArguments]
  refine bind_eq_ok.mpr ⟨_, ho, ?_⟩
  simp only [show readValue left = .ok (first, ⟨left', hl'⟩) from he]
  exact bind_eq_ok.mpr ⟨_, hmore, rfl⟩

theorem readChain_complete {chain : Option (Connective × Expression)}
    (hr : ∀ link ∈ chain, link.2.kind = .conditional ∧ link.2.ReadBack) {tokens : List Token}
    {rest : List Lexeme} (ht : lexemes tokens = chainSpelling chain ++ rest)
    (hf : ∀ x ∈ rest.head?, x ∈ followers .conditional) :
    ∃ left hl, readChain tokens = .ok (chain, ⟨left, hl⟩) ∧ lexemes left = rest := by
  match chain with
  | none =>
    have ht : lexemes tokens = rest := ht
    refine ⟨tokens, Nat.le_refl _, ?_, ht⟩
    rw [← ht] at hf
    exact readChain_of_head?_ne (fun h => by simpa [followers] using hf _ h)
      fun h => by simpa [followers] using hf _ h
  | some (connective, right) =>
    obtain ⟨_, ts, rfl, hts⟩ := exists_of_lexemes_eq_cons ht
    obtain ⟨hk, hright⟩ := hr _ rfl
    obtain ⟨left, hl, he, hleft⟩ := hright ts rest hts
      ⟨by rwa [hk], by simp [endsOpen_of_conditional hk]⟩
    rw [hk] at he
    refine ⟨left, by simp only [List.length_cons]; omega, ?_, hleft⟩
    cases connective with
    | and =>
      rw [Connective.lexeme, readChain]
      exact bind_eq_ok.mpr ⟨_, he, rfl⟩
    | or =>
      rw [Connective.lexeme, readChain]
      exact bind_eq_ok.mpr ⟨_, he, rfl⟩

theorem readAlternative_complete {no : Option Expression}
    (hr : ∀ e ∈ no, e.kind = .value ∧ e.ReadBack) {tokens : List Token} {rest : List Lexeme}
    (ht : lexemes tokens = alternativeSpelling no ++ rest)
    (hf : ∀ x ∈ rest.head?, x ∈ followers .value)
    (ho : alternativeEndsOpen no = true → rest.head? ≠ some .colon) :
    ∃ left hl, readAlternative tokens = .ok (no, ⟨left, hl⟩) ∧ lexemes left = rest := by
  cases no with
  | none =>
    have ht : lexemes tokens = rest := ht
    exact ⟨tokens, Nat.le_refl _, readAlternative_of_head?_ne (ht ▸ ho rfl), ht⟩
  | some no =>
    obtain ⟨_, ts, rfl, hts⟩ := exists_of_lexemes_eq_cons ht
    obtain ⟨hk, hno⟩ := hr _ rfl
    obtain ⟨left, hl, he, hleft⟩ := hno ts rest hts ⟨by rwa [hk], ho⟩
    rw [hk] at he
    refine ⟨left, by simp only [List.length_cons]; omega, ?_, hleft⟩
    rw [readAlternative]
    exact bind_eq_ok.mpr ⟨_, he, rfl⟩

/-- What is read as a condition can only be read as a value if it is the condition of a choice. -/
theorem readValue_eq_readChoice {tokens : List Token} {e : Expression}
    {rest : { rest : List Token // rest.length < tokens.length }}
    (h : readCondition tokens = .ok (e, rest)) : readValue tokens = readChoice tokens := by
  cases tokens with
  | nil => simp [readCondition, readAtom] at h
  | cons t ts =>
    obtain ⟨x, column⟩ := t
    cases x with
    | word name => rw [readValue]
    | not => rw [readValue]
    | check k => rw [readValue]
    | _ => simp [readCondition, readAtom] at h

theorem readCondition_complete {negated : Bool} {e : Expression} {x : Lexeme}
    {tokens : List Token} {front rest : List Lexeme}
    (ht : lexemes tokens = negation negated ++ x :: front) (hx : x ≠ .not)
    (ha : ∀ ts, lexemes ts = x :: front →
      ∃ left hl, readAtom negated ts = .ok (e, ⟨left, hl⟩) ∧ lexemes left = rest) :
    ∃ left hl, readCondition tokens = .ok (e, ⟨left, hl⟩) ∧ lexemes left = rest := by
  cases negated with
  | true =>
    obtain ⟨_, ts, rfl, hts⟩ := exists_of_lexemes_eq_cons ht
    obtain ⟨left, hl, he, hleft⟩ := ha ts hts
    refine ⟨left, by simp only [List.length_cons]; omega, ?_, hleft⟩
    rw [readCondition]
    exact bind_eq_ok.mpr ⟨_, he, rfl⟩
  | false =>
    obtain ⟨left, hl, he, hleft⟩ := ha tokens ht
    refine ⟨left, hl, ?_, hleft⟩
    unfold readCondition
    split
    · exact absurd (List.cons.inj ht).1 hx.symm
    · exact he

theorem readBack_of_wellFormed {e : Expression} (h : e.WellFormed) : e.ReadBack := by
  induction h with
  | access hs =>
    intro tokens rest ht hf
    rw [spelling, List.cons_append, List.cons_append] at ht
    obtain ⟨_, ts, rfl, hts⟩ := exists_of_lexemes_eq_cons ht
    obtain ⟨left, hl, he, hleft⟩ := readAccessor_complete hs hts fun h => by
      simpa [followers, kind] using hf.follows _ h
    refine ⟨left, by simp only [List.length_cons]; omega, ?_, hleft⟩
    simp only [read, kind, readValue]
    exact bind_eq_ok.mpr ⟨_, he, rfl⟩
  | literal =>
    intro tokens rest ht _
    obtain ⟨_, ts, rfl, hts⟩ := exists_of_lexemes_eq_cons ht
    exact ⟨ts, by simp, by simp only [read, kind, readValue], hts⟩
  | quoted =>
    intro tokens rest ht _
    obtain ⟨_, ts, rfl, hts⟩ := exists_of_lexemes_eq_cons ht
    exact ⟨ts, by simp, by simp only [read, kind, readValue], hts⟩
  | choice hkc _ hky _ hkn _ hi ihc ihy ihn =>
    intro tokens rest ht hf
    simp only [spelling, List.append_assoc, List.cons_append] at ht
    obtain ⟨afterCondition, hlc, hc, hcondition⟩ := ihc tokens _ ht
      ⟨by simp [hkc, followers], by simp⟩
    obtain ⟨left, hlq, hq, hleft⟩ := expect_lexeme hcondition
    obtain ⟨afterYes, hly, hy, hyes⟩ := ihy left _ hleft
      (mayPrecede_alternativeSpelling hky hi hf)
    obtain ⟨afterNo, hln, hn, hno⟩ := readAlternative_complete
      (fun e he => ⟨hkn e he, ihn e he⟩) hyes hf.follows hf.innermost
    refine ⟨afterNo, by omega, ?_, hno⟩
    rw [hkc] at hc
    rw [hky] at hy
    simp only [read, kind]
    rw [readValue_eq_readChoice hc, readChoice]
    exact bind_eq_ok.mpr ⟨_, hc, bind_eq_ok.mpr ⟨_, hq, bind_eq_ok.mpr ⟨_, hy,
      bind_eq_ok.mpr ⟨_, hn, rfl⟩⟩⟩⟩
  | existence hk _ ih =>
    intro tokens rest ht hf
    simp only [spelling, List.append_assoc, List.cons_append] at ht
    refine readCondition_complete ht (by simp) ?_
    intro ts hatom
    obtain ⟨_, ts, rfl, hts⟩ := exists_of_lexemes_eq_cons hatom
    obtain ⟨left, hl, hc, hleft⟩ := readChain_complete (fun link hl => ⟨hk link hl, ih link hl⟩)
      hts hf.follows
    refine ⟨left, by simp only [List.length_cons]; omega, ?_, hleft⟩
    rw [readAtom]
    exact bind_eq_ok.mpr ⟨_, hc, rfl⟩
  | operation ha hk _ ih =>
    rename_i op _ _
    intro tokens rest ht hf
    simp only [spelling, List.cons_append] at ht
    obtain ⟨_, ts, rfl, hts⟩ := exists_of_lexemes_eq_cons ht
    obtain ⟨left, hl, hargs, hleft⟩ := readArguments_complete (ne_nil_of_arity ha op.arity_pos)
      (fun e he => ⟨hk e he, ih e he⟩) hts
    refine ⟨left, by simp only [List.length_cons]; omega, ?_, hleft⟩
    simp only [read, kind, readValue]
    refine bind_eq_ok.mpr ⟨_, hargs, bind_eq_ok.mpr ⟨_, ?_, rfl⟩⟩
    exact bind_eq_ok.mpr ⟨_, checkArity_eq_ok.mpr ha, rfl⟩
  | check ha hk _ hkc _ ih ihc =>
    rename_i negated k arguments chain _ _
    intro tokens rest ht hf
    simp only [spelling, List.append_assoc, List.cons_append] at ht
    refine readCondition_complete ht (by simp) ?_
    intro ts hatom
    obtain ⟨_, ts, rfl, hts⟩ := exists_of_lexemes_eq_cons hatom
    obtain ⟨left, hl, hargs, hleft⟩ := readArguments_complete (ne_nil_of_arity ha k.arity_pos)
      (fun e he => ⟨hk e he, ih e he⟩) hts
    obtain ⟨left', hl', hc, hleft'⟩ := readChain_complete
      (fun link hl => ⟨hkc link hl, ihc link hl⟩) hleft hf.follows
    refine ⟨left', by simp only [List.length_cons]; omega, ?_, hleft'⟩
    rw [readAtom]
    exact bind_eq_ok.mpr ⟨_, hargs, bind_eq_ok.mpr ⟨_, checkArity_eq_ok.mpr ha,
      bind_eq_ok.mpr ⟨_, hc, rfl⟩⟩⟩

theorem whole_read_eq_ok {kind : ExpressionKind} {ts : List Token} {e : Expression} :
    whole (read kind ts) = .ok e ↔ e.WellFormed ∧ e.kind = kind ∧ lexemes ts = e.spelling := by
  constructor
  · intro h
    obtain ⟨hl, hr⟩ := whole_eq_ok.mp h
    have hsound : Reads kind ts e [] := by
      cases kind with
      | value => exact readValue_sound hr
      | conditional => exact readCondition_sound hr
    exact ⟨hsound.wellFormed, hsound.kind_eq, by simpa using hsound.spelled⟩
  · rintro ⟨hw, rfl, ht⟩
    obtain ⟨left, hl, hr, hleft⟩ := readBack_of_wellFormed hw ts [] (by simpa using ht)
      ⟨by simp, by simp⟩
    obtain rfl : left = [] := by simpa [lexemes] using hleft
    exact whole_eq_ok.mpr ⟨hl, hr⟩

/-- What is a condition as a whole is no value: the question mark of a choice is missing. -/
theorem whole_readValue_of_condition {ts : List Token} {e : Expression}
    (h : whole (readCondition ts) = .ok e) (e' : Expression) :
    whole (readValue ts) ≠ .ok e' := by
  obtain ⟨hl, hc⟩ := whole_eq_ok.mp h
  rw [readValue_eq_readChoice hc, readChoice, hc]
  exact nofun

theorem tokens_eq {t : Text} {ts : List Token} (ht : Token.ofText t = .ok ts) :
    tokens t = .ok ts := by
  rw [tokens, ht]
  rfl

theorem parse_complete {t : Text} {ts : List Token} (ht : Token.ofText t = .ok ts)
    {e : Expression} (hw : e.WellFormed) (hs : lexemes ts = e.spelling) : parse t = .ok e := by
  have hread : whole (read e.kind ts) = .ok e := whole_read_eq_ok.mpr ⟨hw, rfl, hs⟩
  rw [parse, tokens_eq ht, ok_bind]
  cases hk : e.kind with
  | value =>
    have hv : whole (readValue ts) = .ok e := by rwa [hk] at hread
    rw [hv]
  | conditional =>
    have hc : whole (readCondition ts) = .ok e := by rwa [hk] at hread
    cases hv : whole (readValue ts) with
    | ok e' => exact absurd hv (whole_readValue_of_condition hc e')
    | error fault => rw [hc]

/-- A text is accepted if and only if its tokens are those of a well formed tree, which is then
the result; only conditions are accepted as conditions. -/
theorem parse_eq_ok_iff {t : Text} {ts : List Token} (ht : Token.ofText t = .ok ts)
    (e : Expression) :
    (parse t = .ok e ↔ e.WellFormed ∧ lexemes ts = e.spelling) ∧
      (parseCondition t = .ok e ↔
        e.WellFormed ∧ lexemes ts = e.spelling ∧ e.kind = .conditional) := by
  constructor
  · constructor
    · intro h
      obtain ⟨hw, ts', hts, hs⟩ := parse_sound h
      obtain rfl := Except.ok.inj (ht.symm.trans hts)
      exact ⟨hw, hs⟩
    · rintro ⟨hw, hs⟩
      exact parse_complete ht hw hs
  · have hcondition : whole (readCondition ts) = .ok e ↔
        e.WellFormed ∧ e.kind = .conditional ∧ lexemes ts = e.spelling :=
      @whole_read_eq_ok .conditional ts e
    rw [parseCondition, tokens_eq ht, ok_bind, hcondition]
    exact and_congr_right fun _ => and_comm

def nestedChoice : Expression :=
  .choice (.existence false "A".toList none)
    (.choice (.existence false "B".toList (some (.and, .existence true "C".toList none)))
      (.operation .dirname [.access "X".toList (.joined (some " ".toList))])
      (some (.literal "b".toList)))
    none

def nestedTokens : List Token := [
  ⟨.word "A".toList, 1⟩, ⟨.question, 3⟩, ⟨.word "B".toList, 5⟩, ⟨.and, 7⟩, ⟨.not, 10⟩,
  ⟨.word "C".toList, 11⟩, ⟨.question, 13⟩, ⟨.operation .dirname, 15⟩, ⟨.openParen, 22⟩,
  ⟨.dollar, 23⟩, ⟨.word "X".toList, 24⟩, ⟨.ellipsis, 25⟩, ⟨.closeParen, 28⟩, ⟨.colon, 30⟩,
  ⟨.literal "b".toList, 32⟩]

theorem wellFormed_nestedChoice : nestedChoice.WellFormed := by
  have hb : WellFormed (.existence false "B".toList
      (some (.and, .existence true "C".toList none))) := by
    refine .existence ?_ ?_
    · rintro link ⟨⟩
      rfl
    · rintro link ⟨⟩
      exact .existence (by simp) (by simp)
  have hx : WellFormed (.operation .dirname [.access "X".toList (.joined (some " ".toList))]) := by
    refine .operation rfl ?_ ?_
    · simp [kind]
    · simpa using WellFormed.access (.inr rfl)
  have ha : WellFormed (.existence false "A".toList none) := .existence (by simp) (by simp)
  refine .choice rfl ha rfl (.choice rfl hb rfl hx ?_ ?_ ?_) (by simp) (by simp) (by simp)
  · rintro e ⟨⟩
    rfl
  · rintro e ⟨⟩
    exact .literal
  · exact fun _ => rfl

theorem ofText_nestedTokens :
    Token.ofText "A ? B && !C ? dirname($X...) : 'b'".toList = .ok nestedTokens := by
  with_unfolding_all rfl

theorem parse_nestedChoice :
    parse "A ? B && !C ? dirname($X...) : 'b'".toList = .ok nestedChoice :=
  (parse_eq_ok_iff ofText_nestedTokens nestedChoice).1.mpr ⟨wellFormed_nestedChoice, by decide⟩

end Countermand.Expression

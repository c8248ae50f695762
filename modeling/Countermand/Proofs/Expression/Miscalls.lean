import Countermand.Proofs.Expression.Calls
import Countermand.Proofs.Expression.Completeness

/-! Calls with a wrong number of arguments in what is otherwise an expression. Each call is checked
as soon as it is closed, so the reader stops at the wrong one that is closed first. -/
namespace Countermand.Expression
open Results

def firstMiscall (calls : List PlacedCall) : Option PlacedCall := calls.find? (·.IsMiscalled)

@[simp] theorem firstMiscall_nil : firstMiscall [] = none := rfl

theorem firstMiscall_append_eq_some {calls more : List PlacedCall} {call : PlacedCall} :
    firstMiscall (calls ++ more) = some call ↔
      firstMiscall calls = some call ∨
        firstMiscall calls = none ∧ firstMiscall more = some call := by
  rw [firstMiscall, List.find?_append, Option.or_eq_some_iff]
  rfl

theorem firstMiscall_cons_eq_some {own call : PlacedCall} {more : List PlacedCall} :
    firstMiscall (own :: more) = some call ↔
      own.IsMiscalled ∧ own = call ∨ ¬own.IsMiscalled ∧ firstMiscall more = some call := by
  simp [firstMiscall, List.find?_cons_eq_some]

theorem firstMiscall_eq_none {calls : List PlacedCall} :
    firstMiscall calls = none ↔ ∀ call ∈ calls, ¬call.IsMiscalled := by
  simp [firstMiscall, List.find?_eq_none]

theorem exists_subset_moreCalls {arguments : List Expression} {e : Expression}
    (h : e ∈ arguments) (start : Nat) :
    ∃ inner, e.callsFrom inner ⊆ moreCalls start arguments := by
  induction arguments generalizing start with
  | nil => simp at h
  | cons next more ih =>
    rcases List.mem_cons.mp h with rfl | h
    · exact ⟨start + 1, List.subset_append_left _ _⟩
    · obtain ⟨inner, hi⟩ := ih h (start + 1 + next.spelling.length)
      exact ⟨inner, List.subset_append_of_subset_right _ hi⟩

theorem exists_subset_argumentsCalls {arguments : List Expression} {e : Expression}
    (h : e ∈ arguments) (start : Nat) :
    ∃ inner, e.callsFrom inner ⊆ argumentsCalls start arguments := by
  cases arguments with
  | nil => simp at h
  | cons first more =>
    rcases List.mem_cons.mp h with rfl | h
    · exact ⟨start, List.subset_append_left _ _⟩
    · obtain ⟨inner, hi⟩ := exists_subset_moreCalls h (start + first.spelling.length)
      exact ⟨inner, List.subset_append_of_subset_right _ hi⟩

theorem wellFormed_of_derived {e : Expression} (h : e.Derived True) {start : Nat}
    (hc : ∀ call ∈ e.callsFrom start, ¬call.IsMiscalled) : e.WellFormed := by
  induction h generalizing start with
  | access hs => exact .access hs
  | literal => exact .literal
  | quoted => exact .quoted
  | @choice condition yes no hck _ hyk _ hnk _ hi ihc ihy ihn =>
    simp only [callsFrom, List.mem_append] at hc
    refine .choice hck (ihc fun call h => hc call (.inl h)) hyk
      (ihy fun call h => hc call (.inr (.inl h))) hnk ?_ (hi trivial)
    rintro e ⟨⟩
    exact ihn e rfl fun call h => hc call (.inr (.inr h))
  | existence hk _ ih =>
    refine .existence hk ?_
    rintro link ⟨⟩
    exact ih link rfl hc
  | operation hv _ ih =>
    simp only [callsFrom, List.mem_append, List.mem_singleton] at hc
    refine .operation (not_not.mp (hc _ (.inr rfl))) hv fun e he => ?_
    obtain ⟨inner, hi⟩ := exists_subset_argumentsCalls he (start + 2)
    exact ih e he fun call h => hc call (.inl (hi h))
  | @check negated k arguments chain hv _ hk _ ih ihc =>
    simp only [callsFrom, List.mem_append, List.mem_cons] at hc
    refine .check (not_not.mp (hc _ (.inr (.inl rfl)))) hv (fun e he => ?_) hk ?_
    · obtain ⟨inner, hi⟩ :=
        exists_subset_argumentsCalls he (start + (negation negated).length + 2)
      exact ih e he fun call h => hc call (.inl (hi h))
    · rintro link ⟨⟩
      exact ihc link rfl fun call h => hc call (.inr (.inr h))

theorem readBack_of_derived {e : Expression} (h : e.Derived True) {start : Nat}
    (hc : firstMiscall (e.callsFrom start) = none) : e.ReadBack :=
  readBack_of_wellFormed (wellFormed_of_derived h (firstMiscall_eq_none.mp hc))

/-- Wherever the expression is written, the first wrong call in it is reported. -/
def ReportsMiscall (e : Expression) : Prop :=
  ∀ start call, firstMiscall (e.callsFrom start) = some call → ∀ tokens rest,
    lexemes tokens = e.spelling ++ rest → e.MayPrecede rest → read e.kind tokens = .error call.fault

theorem checkArity_eq_error {name : Text} {arity : Nat} {arguments : List Expression}
    {fault : ParseError} : checkArity name arity arguments = .error fault ↔
      arguments.length ≠ arity ∧ .argumentCount name arity arguments.length = fault := by
  unfold checkArity
  split <;> simp_all

/-- No value starts with a closing parenthesis, so that there are no arguments. -/
theorem readArguments_empty {tokens : List Token} {rest : List Lexeme}
    (ht : lexemes tokens = .openParen :: .closeParen :: rest) :
    ∃ left hl, readArguments tokens = .ok ([], ⟨left, hl⟩) ∧ lexemes left = rest := by
  obtain ⟨_, ts, rfl, hts⟩ := exists_of_lexemes_eq_cons ht
  obtain ⟨_, left, rfl, hleft⟩ := exists_of_lexemes_eq_cons hts
  refine ⟨left, by simp only [List.length_cons]; omega, ?_, hleft⟩
  simp [readArguments, expect, readValue, Lexeme.kind]

theorem readMoreArguments_miscall {arguments : List Expression}
    (hd : ∀ e ∈ arguments, e.kind = .value ∧ e.Derived True)
    (hr : ∀ e ∈ arguments, e.ReportsMiscall) {start : Nat} {call : PlacedCall}
    (hm : firstMiscall (moreCalls start arguments) = some call) {tokens : List Token}
    {rest : List Lexeme} (ht : lexemes tokens = moreSpelling arguments ++ rest) :
    readMoreArguments tokens = .error call.fault := by
  induction arguments generalizing start tokens with
  | nil => simp [moreCalls] at hm
  | cons next more ih =>
    rw [moreSpelling, List.cons_append, List.append_assoc] at ht
    obtain ⟨_, ts, rfl, hts⟩ := exists_of_lexemes_eq_cons ht
    obtain ⟨hk, hnext⟩ := hd next (by simp)
    rw [readMoreArguments]
    rw [moreCalls, firstMiscall_append_eq_some] at hm
    rcases hm with hm | ⟨hnone, hm⟩
    · have hread := hr next (by simp) _ call hm ts _ hts (mayPrecede_moreSpelling hk)
      rw [hk] at hread
      exact bind_eq_error.mpr (.inl hread)
    · obtain ⟨left, hl, he, hleft⟩ :=
        readBack_of_derived hnext hnone ts _ hts (mayPrecede_moreSpelling hk)
      rw [hk] at he
      have hmore := ih (fun e he => hd e (List.mem_cons_of_mem _ he))
        (fun e he => hr e (List.mem_cons_of_mem _ he)) hm hleft
      exact bind_eq_error.mpr (.inr ⟨_, he, bind_eq_error.mpr (.inl hmore)⟩)

theorem readArguments_miscall {arguments : List Expression}
    (hd : ∀ e ∈ arguments, e.kind = .value ∧ e.Derived True)
    (hr : ∀ e ∈ arguments, e.ReportsMiscall) {start : Nat} {call : PlacedCall}
    (hm : firstMiscall (argumentsCalls start arguments) = some call) {tokens : List Token}
    {rest : List Lexeme}
    (ht : lexemes tokens = .openParen :: (argumentsSpelling arguments ++ rest)) :
    readArguments tokens = .error call.fault := by
  cases arguments with
  | nil => simp [argumentsCalls] at hm
  | cons first more =>
    obtain ⟨left, hl, ho, hleft⟩ := expect_lexeme ht
    obtain ⟨hk, hfirst⟩ := hd first (by simp)
    rw [argumentsSpelling, List.append_assoc] at hleft
    rw [readArguments]
    refine bind_eq_error.mpr (.inr ⟨_, ho, ?_⟩)
    rw [argumentsCalls, firstMiscall_append_eq_some] at hm
    rcases hm with hm | ⟨hnone, hm⟩
    · have hread := hr first (by simp) _ call hm left _ hleft (mayPrecede_moreSpelling hk)
      rw [hk] at hread
      simp only [show readValue left = .error call.fault from hread, PlacedCall.fault]
    · obtain ⟨left', hl', he, hleft'⟩ :=
        readBack_of_derived hfirst hnone left _ hleft (mayPrecede_moreSpelling hk)
      rw [hk] at he
      simp only [show readValue left = .ok (first, ⟨left', hl'⟩) from he]
      have hmore := readMoreArguments_miscall (fun e he => hd e (List.mem_cons_of_mem _ he))
        (fun e he => hr e (List.mem_cons_of_mem _ he)) hm hleft'
      exact bind_eq_error.mpr (.inl hmore)

theorem readArguments_of_derived {arguments : List Expression}
    (hd : ∀ e ∈ arguments, e.kind = .value ∧ e.Derived True) {start : Nat}
    (hn : firstMiscall (argumentsCalls start arguments) = none) {tokens : List Token}
    {rest : List Lexeme}
    (ht : lexemes tokens = .openParen :: (argumentsSpelling arguments ++ rest)) :
    ∃ left hl, readArguments tokens = .ok (arguments, ⟨left, hl⟩) ∧ lexemes left = rest := by
  by_cases hne : arguments = []
  · subst hne
    exact readArguments_empty ht
  · refine readArguments_complete hne (fun e he => ⟨(hd e he).1, ?_⟩) ht
    obtain ⟨inner, hi⟩ := exists_subset_argumentsCalls he start
    exact readBack_of_derived (hd e he).2
      (firstMiscall_eq_none.mpr fun call h => firstMiscall_eq_none.mp hn call (hi h))

theorem readAlternative_miscall {no : Option Expression}
    (hr : ∀ e ∈ no, e.kind = .value ∧ e.ReportsMiscall) {start : Nat} {call : PlacedCall}
    (hm : firstMiscall (alternativeCalls start no) = some call) {tokens : List Token}
    {rest : List Lexeme} (ht : lexemes tokens = alternativeSpelling no ++ rest)
    (hf : ∀ x ∈ rest.head?, x ∈ followers .value)
    (ho : alternativeEndsOpen no = true → rest.head? ≠ some .colon) :
    readAlternative tokens = .error call.fault := by
  cases no with
  | none => simp [alternativeCalls] at hm
  | some no =>
    obtain ⟨_, ts, rfl, hts⟩ := exists_of_lexemes_eq_cons ht
    obtain ⟨hk, hno⟩ := hr _ rfl
    have hread := hno _ call hm ts rest hts ⟨by rwa [hk], ho⟩
    rw [hk] at hread
    rw [readAlternative]
    exact bind_eq_error.mpr (.inl hread)

theorem readChain_miscall {chain : Option (Connective × Expression)}
    (hr : ∀ link ∈ chain, link.2.kind = .conditional ∧ link.2.ReportsMiscall) {start : Nat}
    {call : PlacedCall} (hm : firstMiscall (chainCalls start chain) = some call)
    {tokens : List Token} {rest : List Lexeme} (ht : lexemes tokens = chainSpelling chain ++ rest)
    (hf : ∀ x ∈ rest.head?, x ∈ followers .conditional) :
    readChain tokens = .error call.fault := by
  match chain with
  | none => simp [chainCalls] at hm
  | some (connective, right) =>
    obtain ⟨_, ts, rfl, hts⟩ := exists_of_lexemes_eq_cons ht
    obtain ⟨hk, hright⟩ := hr _ rfl
    have hread := hright _ call hm ts rest hts ⟨by rwa [hk], by simp [endsOpen_of_conditional hk]⟩
    rw [hk] at hread
    cases connective with
    | and =>
      rw [Connective.lexeme, readChain]
      exact bind_eq_error.mpr (.inl hread)
    | or =>
      rw [Connective.lexeme, readChain]
      exact bind_eq_error.mpr (.inl hread)

def OpensCondition (x : Lexeme) : Prop := (∃ name, x = .word name) ∨ x = .not ∨ ∃ k, x = .check k

theorem readValue_of_opens {t : Token} {ts : List Token} (ho : OpensCondition t.lexeme) :
    readValue (t :: ts) = readChoice (t :: ts) := by
  obtain ⟨x, column⟩ := t
  obtain ⟨name, rfl⟩ | rfl | ⟨k, rfl⟩ := ho <;> rw [readValue]

theorem exists_opens_of_conditional {e : Expression} (hk : e.kind = .conditional) :
    ∃ x ls, e.spelling = x :: ls ∧ OpensCondition x := by
  cases e with
  | existence negated name chain =>
    cases negated with
    | true => exact ⟨_, _, rfl, .inr (.inl rfl)⟩
    | false => exact ⟨_, _, rfl, .inl ⟨name, rfl⟩⟩
  | check negated k arguments chain =>
    cases negated with
    | true => exact ⟨_, _, rfl, .inr (.inl rfl)⟩
    | false => exact ⟨_, _, rfl, .inr (.inr ⟨k, rfl⟩)⟩
  | _ => simp [kind] at hk

theorem readValue_eq_readChoice_of_conditional {e : Expression} (hk : e.kind = .conditional)
    {tokens : List Token} {rest : List Lexeme} (ht : lexemes tokens = e.spelling ++ rest) :
    readValue tokens = readChoice tokens := by
  obtain ⟨x, ls, hs, ho⟩ := exists_opens_of_conditional hk
  rw [hs, List.cons_append] at ht
  obtain ⟨_, ts, rfl, -⟩ := exists_of_lexemes_eq_cons ht
  exact readValue_of_opens ho

theorem readCondition_eq_error {negated : Bool} {x : Lexeme} {tokens : List Token}
    {front : List Lexeme} {fault : ParseError}
    (ht : lexemes tokens = negation negated ++ x :: front) (hx : x ≠ .not)
    (ha : ∀ ts, lexemes ts = x :: front → readAtom negated ts = .error fault) :
    readCondition tokens = .error fault := by
  cases negated with
  | true =>
    obtain ⟨_, ts, rfl, hts⟩ := exists_of_lexemes_eq_cons ht
    rw [readCondition]
    exact bind_eq_error.mpr (.inl (ha ts hts))
  | false =>
    unfold readCondition
    split
    · exact absurd (List.cons.inj ht).1 hx.symm
    · exact ha tokens ht

theorem mayPrecede_question {condition : Expression} (hk : condition.kind = .conditional)
    (rest : List Lexeme) : condition.MayPrecede (.question :: rest) :=
  ⟨by simp [hk, followers], by simp⟩

/-- In a settled tree the reader stops at the wrong call that is closed first. -/
theorem reportsMiscall_of_derived {e : Expression} (h : e.Derived True) : e.ReportsMiscall := by
  induction h with
  | access | literal | quoted =>
    intro start call hm
    simp [callsFrom] at hm
  | @choice condition yes no hck hcd hyk hyd hnk _ hi ihc ihy ihn =>
    intro start call hm tokens rest ht hf
    simp only [spelling, List.append_assoc, List.cons_append] at ht
    have hc := mayPrecede_question hck (yes.spelling ++ (alternativeSpelling no ++ rest))
    simp only [read, kind]
    rw [readValue_eq_readChoice_of_conditional hck ht, readChoice]
    simp only [callsFrom, firstMiscall_append_eq_some] at hm
    rcases hm with hm | ⟨hcondition, hm⟩
    · have hread := ihc start call hm tokens _ ht hc
      rw [hck] at hread
      exact bind_eq_error.mpr (.inl hread)
    · obtain ⟨afterCondition, hlc, hread, hafter⟩ :=
        readBack_of_derived hcd hcondition tokens _ ht hc
      obtain ⟨left, hlq, hq, hleft⟩ := expect_lexeme hafter
      rw [hck] at hread
      refine bind_eq_error.mpr (.inr ⟨_, hread, bind_eq_error.mpr (.inr ⟨_, hq, ?_⟩)⟩)
      have hy := mayPrecede_alternativeSpelling hyk (hi trivial) hf
      rcases hm with hm | ⟨hyes, hm⟩
      · have hread := ihy _ call hm left _ hleft hy
        rw [hyk] at hread
        exact bind_eq_error.mpr (.inl hread)
      · obtain ⟨afterYes, hly, hread, hafter⟩ := readBack_of_derived hyd hyes left _ hleft hy
        rw [hyk] at hread
        refine bind_eq_error.mpr (.inr ⟨_, hread, bind_eq_error.mpr (.inl ?_)⟩)
        exact readAlternative_miscall (fun e he => ⟨hnk e he, ihn e he⟩) hm hafter hf.follows
          hf.innermost
  | existence hk _ ih =>
    intro start call hm tokens rest ht hf
    simp only [spelling, List.append_assoc, List.cons_append] at ht
    refine readCondition_eq_error ht (by simp) fun ts hatom => ?_
    obtain ⟨_, ts, rfl, hts⟩ := exists_of_lexemes_eq_cons hatom
    rw [readAtom]
    exact bind_eq_error.mpr (.inl (readChain_miscall (fun link hl => ⟨hk link hl, ih link hl⟩)
      hm hts hf.follows))
  | operation hv hd ih =>
    intro start call hm tokens rest ht hf
    simp only [spelling, List.cons_append] at ht
    obtain ⟨_, ts, rfl, hts⟩ := exists_of_lexemes_eq_cons ht
    have hvd := fun e he => And.intro (hv e he) (hd e he)
    simp only [read, kind, readValue]
    simp only [callsFrom, firstMiscall_append_eq_some, firstMiscall_cons_eq_some] at hm
    rcases hm with hm | ⟨hnone, ⟨hwrong, rfl⟩ | ⟨-, hm⟩⟩
    · exact bind_eq_error.mpr (.inl (readArguments_miscall hvd ih hm hts))
    · obtain ⟨left, hl, hargs, -⟩ := readArguments_of_derived hvd hnone hts
      exact bind_eq_error.mpr (.inr ⟨_, hargs, bind_eq_error.mpr (.inl
        (bind_eq_error.mpr (.inl (checkArity_eq_error.mpr ⟨hwrong, rfl⟩))))⟩)
    · simp at hm
  | @check negated k arguments chain hv hd hk _ ih ihc =>
    intro start call hm tokens rest ht hf
    simp only [spelling, List.append_assoc, List.cons_append] at ht
    refine readCondition_eq_error ht (by simp) fun ts hatom => ?_
    obtain ⟨_, ts, rfl, hts⟩ := exists_of_lexemes_eq_cons hatom
    have hvd := fun e he => And.intro (hv e he) (hd e he)
    rw [readAtom]
    simp only [callsFrom, firstMiscall_append_eq_some, firstMiscall_cons_eq_some] at hm
    rcases hm with hm | ⟨hnone, hm⟩
    · exact bind_eq_error.mpr (.inl (readArguments_miscall hvd ih hm hts))
    · obtain ⟨left, hl, hargs, hleft⟩ := readArguments_of_derived hvd hnone hts
      refine bind_eq_error.mpr (.inr ⟨_, hargs, ?_⟩)
      rcases hm with ⟨hwrong, rfl⟩ | ⟨hright, hm⟩
      · exact bind_eq_error.mpr (.inl (checkArity_eq_error.mpr ⟨hwrong, rfl⟩))
      · refine bind_eq_error.mpr (.inr ⟨_, checkArity_eq_ok.mpr (not_not.mp hright), ?_⟩)
        exact bind_eq_error.mpr (.inl (readChain_miscall
          (fun link hl => ⟨hk link hl, ihc link hl⟩) hm hleft hf.follows))

theorem exists_first_miscall {calls : List PlacedCall} (ho : InOrder calls)
    (h : ∃ call ∈ calls, call.IsMiscalled) :
    ∃ first ∈ calls, firstMiscall calls = some first ∧ first.IsMiscalled ∧
      ∀ other ∈ calls, other.IsMiscalled → other ≠ first → first.closing < other.closing := by
  obtain ⟨first, hfirst⟩ : ∃ first, firstMiscall calls = some first := by
    obtain ⟨call, hmem, hwrong⟩ := h
    exact Option.ne_none_iff_exists'.mp fun hn => firstMiscall_eq_none.mp hn call hmem hwrong
  obtain ⟨hwrong, front, rest, rfl, hfront⟩ := List.find?_eq_some_iff_append.mp hfirst
  refine ⟨first, by simp, hfirst, by simpa using hwrong, fun other hmem hother hne => ?_⟩
  rcases List.mem_append.mp hmem with hmem | hmem
  · exact absurd hother (by simpa using hfront other hmem)
  · rcases List.mem_cons.mp hmem with rfl | hmem
    · exact absurd rfl hne
    · exact (List.pairwise_cons.mp (List.pairwise_append.mp ho).2.1).1 other hmem

/-- Behind a whole condition, a value misses its question mark. -/
theorem readValue_of_whole_condition {ts : List Token} {e : Expression}
    (h : whole (readCondition ts) = .ok e) : readValue ts = .error .endOfInput := by
  obtain ⟨hl, hc⟩ := whole_eq_ok.mp h
  rw [readValue_eq_readChoice hc, readChoice, hc]
  rfl

theorem parse_of_read_miscall {t : Text} {ts : List Token} (ht : Token.ofText t = .ok ts)
    {e : Expression} (hs : lexemes ts = e.spelling) {call : PlacedCall}
    (h : read e.kind ts = .error call.fault) : parse t = .error call.fault := by
  have hvalue : readValue ts = .error call.fault := by
    cases hk : e.kind with
    | value => rwa [hk] at h
    | conditional =>
      rw [hk] at h
      have hs' : lexemes ts = e.spelling ++ [] := by simpa using hs
      rw [readValue_eq_readChoice_of_conditional hk hs', readChoice]
      exact bind_eq_error.mpr (.inl h)
  rw [parse, tokens_eq ht, ok_bind, hvalue]
  cases hc : whole (readCondition ts) with
  | error fault => rfl
  | ok e' =>
    rw [readValue_of_whole_condition hc] at hvalue
    simp [PlacedCall.fault] at hvalue

/-- If only arities keep a text from being parsed, the error is about the wrong call whose closing
parenthesis comes first. -/
theorem parse_of_miscall {t : Text} {ts : List Token} (ht : Token.ofText t = .ok ts)
    {e : Expression} (hg : e.Grammatical) (hs : lexemes ts = e.spelling)
    (h : ∃ call ∈ e.callsFrom 0, call.IsMiscalled) :
    ∃ first ∈ e.callsFrom 0, first.IsMiscalled ∧
      (∀ other ∈ e.callsFrom 0, other.IsMiscalled → other ≠ first →
        first.closing < other.closing) ∧
      parse t = .error first.fault := by
  obtain ⟨first, hmem, hfirst, hwrong, hleast⟩ := exists_first_miscall (inOrder_callsFrom 0 e) h
  obtain ⟨e', he⟩ := exists_settled hg
  have hs' : lexemes ts = e'.spelling := hs.trans he.spelling_eq.symm
  have hread := reportsMiscall_of_derived he.derived 0 first ((he.calls_eq 0).symm ▸ hfirst) ts []
    (by simpa using hs') ⟨by simp, by simp⟩
  exact ⟨first, hmem, hwrong, hleast, parse_of_read_miscall ht hs' hread⟩

end Countermand.Expression

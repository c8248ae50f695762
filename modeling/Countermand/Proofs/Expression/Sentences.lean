import Countermand.Proofs.Expression.Calls
import Countermand.Proofs.Expression.Scanning
import Countermand.Proofs.Expression.Soundness

/-! What an error of the parser says about the tokens, and what the documented grammar lets stand
behind the tokens that are read so far. -/
namespace Countermand.Expression

def IsPhrase (kind : ExpressionKind) (e : Expression) : Prop := e.Grammatical ∧ e.kind = kind

theorem forall_isPhrase {arguments : List Expression}
    (h : ∀ e ∈ arguments, e.kind = .value ∧ e.WellFormed) : ∀ e ∈ arguments, e.IsPhrase .value :=
  fun e he => ⟨(h e he).2.derived False, (h e he).1⟩

theorem Reads.isPhrase {kind : ExpressionKind} {tokens rest : List Token} {e : Expression}
    (h : Reads kind tokens e rest) : e.IsPhrase kind := ⟨h.wellFormed.derived False, h.kind_eq⟩

theorem isPhrase_literal : IsPhrase .value (.literal []) := ⟨.literal, rfl⟩

theorem isPhrase_choice {condition yes : Expression} {no : Option Expression}
    (hc : condition.IsPhrase .conditional) (hy : yes.IsPhrase .value)
    (hn : ∀ e ∈ no, e.IsPhrase .value) : IsPhrase .value (.choice condition yes no) :=
  ⟨.choice hc.2 hc.1 hy.2 hy.1 (fun e he => (hn e he).2) (fun e he => (hn e he).1) False.elim, rfl⟩

theorem isPhrase_operation (op : Operation) {arguments : List Expression}
    (ha : ∀ e ∈ arguments, e.IsPhrase .value) : IsPhrase .value (.operation op arguments) :=
  ⟨.operation (fun e he => (ha e he).2) fun e he => (ha e he).1, rfl⟩

theorem isPhrase_existence (negated : Bool) (name : Text)
    {chain : Option (Connective × Expression)} (hc : ∀ link ∈ chain, link.2.IsPhrase .conditional) :
    IsPhrase .conditional (.existence negated name chain) :=
  ⟨.existence (fun link hl => (hc link hl).2) fun link hl => (hc link hl).1, rfl⟩

theorem isPhrase_check (negated : Bool) (k : Check) {arguments : List Expression}
    {chain : Option (Connective × Expression)} (ha : ∀ e ∈ arguments, e.IsPhrase .value)
    (hc : ∀ link ∈ chain, link.2.IsPhrase .conditional) :
    IsPhrase .conditional (.check negated k arguments chain) :=
  ⟨.check (fun e he => (ha e he).2) (fun e he => (ha e he).1) (fun link hl => (hc link hl).2)
    fun link hl => (hc link hl).1, rfl⟩

def phrases (kind : ExpressionKind) : Language Lexeme :=
  {ls | ∃ e : Expression, e.IsPhrase kind ∧ e.spelling = ls}

/-- What the documented grammar takes for an expression. -/
def sentences : Language Lexeme := {ls | ∃ e : Expression, e.Grammatical ∧ e.spelling = ls}

/-- What an error says about the tokens that were not in a language. The tokens in front of an
unexpected one begin a sentence that goes on with a token of the kind that was looked for, or they
are a sentence if nothing should follow; at the end of the tokens, all of them begin a longer
sentence; and a call whose arguments are counted stands among the tokens with these arguments. -/
inductive Obstacle (L : Language Lexeme) (ts : List Token) : ParseError → Prop
  | unexpected {front rest : List Token} {found : Token} {x : Lexeme} {more : List Lexeme}
    (split : ts = front ++ found :: rest) (valid : ∀ y ∈ x :: more, y.IsValid)
    (completed : lexemes front ++ x :: more ∈ L) : Obstacle L ts (.unexpected (.token x.kind) found)
  | trailing {front rest : List Token} {found : Token} (split : ts = front ++ found :: rest)
    (complete : lexemes front ∈ L) : Obstacle L ts (.unexpected .finish found)
  | ended {x : Lexeme} {more : List Lexeme} (valid : ∀ y ∈ x :: more, y.IsValid)
    (completed : lexemes ts ++ x :: more ∈ L) : Obstacle L ts .endOfInput
  | miscalled {callee : Callee} {arguments : List Expression}
    (values : ∀ e ∈ arguments, e.IsPhrase .value)
    (within : callee.calling arguments <:+: lexemes ts)
    (wrong : arguments.length ≠ callee.arity) :
    Obstacle L ts (.argumentCount callee.name callee.arity arguments.length)

/-- Behind `front`, whatever is in the language `A` begins the rest of something in `L`. -/
def Admits (L : Language Lexeme) (front : List Lexeme) (A : Language Lexeme) : Prop :=
  ∀ ls ∈ A, ∃ more : List Lexeme, (∀ y ∈ more, y.IsValid) ∧ front ++ (ls ++ more) ∈ L

theorem Admits.of_mem {L A : Language Lexeme} {front : List Lexeme}
    (h : ∀ ls ∈ A, front ++ ls ∈ L) : Admits L front A :=
  fun ls hls => ⟨[], List.forall_mem_nil _, by rw [List.append_nil]; exact h ls hls⟩

theorem Admits.trans {L A B : Language Lexeme} {front used : List Lexeme} (h : Admits L front A)
    (hA : Admits A used B) : Admits L (front ++ used) B := by
  intro ls hls
  obtain ⟨more, hv, hmore⟩ := hA ls hls
  obtain ⟨after, hv', hafter⟩ := h _ hmore
  exact ⟨more ++ after, List.forall_mem_append.mpr ⟨hv, hv'⟩, by simpa using hafter⟩

theorem Admits.unexpected {L A : Language Lexeme} {front : List Token}
    (h : Admits L (lexemes front) A) {x : Lexeme} {more : List Lexeme} (hx : x :: more ∈ A)
    (hv : ∀ y ∈ x :: more, y.IsValid) (found : Token) (rest : List Token) :
    Obstacle L (front ++ found :: rest) (.unexpected (.token x.kind) found) := by
  obtain ⟨after, hv', hafter⟩ := h _ hx
  exact .unexpected rfl (List.forall_mem_append.mpr ⟨hv, hv'⟩) hafter

theorem Admits.ended {L A : Language Lexeme} {front : List Token} (h : Admits L (lexemes front) A)
    {x : Lexeme} {more : List Lexeme} (hx : x :: more ∈ A) (hv : ∀ y ∈ x :: more, y.IsValid) :
    Obstacle L (front ++ []) .endOfInput := by
  obtain ⟨after, hv', hafter⟩ := h _ hx
  exact .ended (List.forall_mem_append.mpr ⟨hv, hv'⟩) (by simpa using hafter)

theorem expect_obstacle (x : Lexeme) {L A : Language Lexeme} {front tokens : List Token}
    {fault : ParseError} (h : expect x.kind tokens = .error fault)
    (ha : Admits L (lexemes front) A) {more : List Lexeme} (hx : x :: more ∈ A)
    (hv : ∀ y ∈ x :: more, y.IsValid) : Obstacle L (front ++ tokens) fault := by
  cases tokens with
  | nil =>
    obtain rfl := Except.error.inj h
    exact ha.ended hx hv
  | cons t ts =>
    simp only [expect] at h
    split at h
    · simp at h
    · obtain rfl := Except.error.inj h
      exact ha.unexpected hx hv t ts

def argumentLists : Language Lexeme :=
  {ls | ∃ arguments, (∀ e ∈ arguments, IsPhrase .value e) ∧
    .openParen :: argumentsSpelling arguments = ls}

def furtherArguments : Language Lexeme :=
  {ls | ∃ arguments, (∀ e ∈ arguments, IsPhrase .value e) ∧ moreSpelling arguments = ls}

def alternatives : Language Lexeme :=
  {ls | ∃ no, (∀ e ∈ no, IsPhrase .value e) ∧ alternativeSpelling no = ls}

def chains : Language Lexeme :=
  {ls | ∃ chain : Option (Connective × Expression),
    (∀ link ∈ chain, link.2.IsPhrase .conditional) ∧ chainSpelling chain = ls}

def atoms (negated : Bool) : Language Lexeme := {ls | negation negated ++ ls ∈ phrases .conditional}

def accessors : Language Lexeme := {ls | .dollar :: ls ∈ phrases .value}

theorem isValid_literal : (Lexeme.literal []).IsValid := ⟨by simp, by simp⟩

theorem isValid_word : (Lexeme.word ['A']).IsValid :=
  ⟨by decide, by simp [Token.isWordCharacter], fun op => by cases op <;> decide,
    fun k => by cases k <;> decide⟩

theorem valid_choice : ∀ y ∈ [.question, .literal []], Lexeme.IsValid y :=
  List.forall_mem_cons.mpr ⟨trivial, List.forall_mem_singleton.mpr isValid_literal⟩

theorem valid_close : ∀ y ∈ [.closeParen], Lexeme.IsValid y := List.forall_mem_singleton.mpr trivial

theorem valid_call : ∀ y ∈ [.operation .dirname, .openParen, .closeParen], Lexeme.IsValid y := by
  simp [Lexeme.IsValid]

theorem literal_mem : [.literal []] ∈ phrases .value := ⟨.literal [], isPhrase_literal, rfl⟩

theorem call_mem : [.operation .dirname, .openParen, .closeParen] ∈ phrases .value :=
  ⟨.operation .dirname [], isPhrase_operation _ (List.forall_mem_nil _), rfl⟩

theorem access_mem : [.word ['A']] ∈ accessors :=
  ⟨.access ['A'] .plain, ⟨.access (.inl rfl), rfl⟩, rfl⟩

theorem close_mem : [.closeParen] ∈ furtherArguments := ⟨[], List.forall_mem_nil _, rfl⟩

theorem empty_mem : [.openParen, .closeParen] ∈ argumentLists := ⟨[], List.forall_mem_nil _, rfl⟩

theorem word_mem (negated : Bool) : [.word ['A']] ∈ atoms negated :=
  ⟨.existence negated ['A'] none, isPhrase_existence _ _ (by simp), rfl⟩

theorem admits_sentence {kind : ExpressionKind} : Admits sentences [] (phrases kind) := by
  refine .of_mem ?_
  rintro ls ⟨e, he, rfl⟩
  exact ⟨e, he.1, rfl⟩

theorem admits_operation (op : Operation) :
    Admits (phrases .value) [.operation op] argumentLists := by
  refine .of_mem ?_
  rintro ls ⟨arguments, ha, rfl⟩
  exact ⟨.operation op arguments, isPhrase_operation op ha, rfl⟩

theorem admits_dollar : Admits (phrases .value) [.dollar] accessors := .of_mem fun _ h => h

theorem admits_condition : Admits (phrases .value) [] (phrases .conditional) := by
  rintro ls ⟨condition, hc, rfl⟩
  exact ⟨[.question, .literal []], valid_choice, .choice condition (.literal []) none,
    isPhrase_choice hc isPhrase_literal (by simp), rfl⟩

theorem admits_question {condition : Expression} (hc : condition.IsPhrase .conditional) :
    Admits (phrases .value) condition.spelling {[.question, .literal []]} := by
  refine .of_mem ?_
  rintro ls rfl
  exact ⟨.choice condition (.literal []) none, isPhrase_choice hc isPhrase_literal (by simp), rfl⟩

theorem admits_yes {condition : Expression} (hc : condition.IsPhrase .conditional) :
    Admits (phrases .value) (condition.spelling ++ [.question]) (phrases .value) := by
  refine .of_mem ?_
  rintro ls ⟨yes, hy, rfl⟩
  exact ⟨.choice condition yes none, isPhrase_choice hc hy (by simp),
    by simp [spelling, alternativeSpelling]⟩

theorem admits_alternative {condition yes : Expression} (hc : condition.IsPhrase .conditional)
    (hy : yes.IsPhrase .value) :
    Admits (phrases .value) (condition.spelling ++ [.question] ++ yes.spelling) alternatives := by
  refine .of_mem ?_
  rintro ls ⟨no, hn, rfl⟩
  exact ⟨.choice condition yes no, isPhrase_choice hc hy hn, by simp [spelling]⟩

theorem admits_no : Admits alternatives [.colon] (phrases .value) := by
  refine .of_mem ?_
  rintro ls ⟨e, he, rfl⟩
  exact ⟨some e, by simpa, rfl⟩

theorem admits_first : Admits argumentLists [.openParen] (phrases .value) := by
  rintro ls ⟨e, he, rfl⟩
  exact ⟨[.closeParen], valid_close, [e], by simpa, rfl⟩

theorem admits_close : Admits argumentLists [.openParen] {[.closeParen]} := by
  refine .of_mem ?_
  rintro ls rfl
  exact empty_mem

theorem admits_further {first : Expression} (hf : first.IsPhrase .value) :
    Admits argumentLists ([.openParen] ++ first.spelling) furtherArguments := by
  refine .of_mem ?_
  rintro ls ⟨more, hm, rfl⟩
  exact ⟨first :: more, List.forall_mem_cons.mpr ⟨hf, hm⟩, rfl⟩

theorem admits_next : Admits furtherArguments [.comma] (phrases .value) := by
  rintro ls ⟨e, he, rfl⟩
  exact ⟨[.closeParen], valid_close, [e], by simpa, rfl⟩

theorem admits_more {next : Expression} (hn : next.IsPhrase .value) :
    Admits furtherArguments ([.comma] ++ next.spelling) furtherArguments := by
  refine .of_mem ?_
  rintro ls ⟨more, hm, rfl⟩
  exact ⟨next :: more, List.forall_mem_cons.mpr ⟨hn, hm⟩, rfl⟩

theorem admits_atom (negated : Bool) :
    Admits (phrases .conditional) (negation negated) (atoms negated) := .of_mem fun _ h => h

theorem admits_chain (negated : Bool) (name : Text) :
    Admits (atoms negated) [.word name] chains := by
  refine .of_mem ?_
  rintro ls ⟨chain, hc, rfl⟩
  exact ⟨.existence negated name chain, isPhrase_existence _ _ hc, by simp [spelling]⟩

theorem admits_checked (negated : Bool) (k : Check) :
    Admits (atoms negated) [.check k] argumentLists := by
  refine .of_mem ?_
  rintro ls ⟨arguments, ha, rfl⟩
  exact ⟨.check negated k arguments none, isPhrase_check _ _ ha (by simp),
    by simp [spelling, chainSpelling]⟩

theorem admits_checkChain (negated : Bool) (k : Check) {arguments : List Expression}
    (ha : ∀ e ∈ arguments, e.IsPhrase .value) :
    Admits (atoms negated) ((Callee.check k).calling arguments) chains := by
  refine .of_mem ?_
  rintro ls ⟨chain, hc, rfl⟩
  exact ⟨.check negated k arguments chain, isPhrase_check _ _ ha hc,
    by simp [spelling, Callee.calling, Callee.lexeme]⟩

theorem admits_link (connective : Connective) :
    Admits chains [connective.lexeme] (phrases .conditional) := by
  refine .of_mem ?_
  rintro ls ⟨e, he, rfl⟩
  exact ⟨some (connective, e), by simpa, rfl⟩

end Countermand.Expression

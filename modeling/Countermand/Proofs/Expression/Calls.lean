import Countermand.Proofs.Expression.Grammar

/-! The documented grammar without the arities of calls, and the calls of a tree in the order of
their closing parentheses. A colon that two choices could take can be given to the inner one: this
changes neither the tokens nor the calls. -/
namespace Countermand

inductive Callee
  | operation (op : Operation)
  | check (k : Check)
  deriving DecidableEq, Repr

namespace Callee

def lexeme : Callee → Lexeme
  | .operation op => .operation op
  | .check k => .check k

def name : Callee → Text
  | .operation op => op.name
  | .check k => k.name

def arity : Callee → Nat
  | .operation op => op.arity
  | .check k => k.arity

def calling (callee : Callee) (arguments : List Expression) : List Lexeme :=
  callee.lexeme :: .openParen :: Expression.argumentsSpelling arguments

end Callee

/-- A call with some number of arguments, and how many tokens there are up to its closing
parenthesis. -/
structure PlacedCall where
  callee : Callee
  count : Nat
  closing : Nat
  deriving DecidableEq, Repr

namespace PlacedCall

def IsMiscalled (call : PlacedCall) : Prop := call.count ≠ call.callee.arity

instance (call : PlacedCall) : Decidable call.IsMiscalled :=
  inferInstanceAs (Decidable (call.count ≠ call.callee.arity))

def fault (call : PlacedCall) : ParseError :=
  .argumentCount call.callee.name call.callee.arity call.count

end PlacedCall

namespace Expression

/-- The trees that the documented grammar derives: values and conditions are kept apart, but calls
may have any number of arguments. If colons are `attached`, each belongs to the innermost choice
that can take it; otherwise it may belong to any choice before it. -/
inductive Derived (attached : Prop) : Expression → Prop
  | access {name : Text} {spread : Spread} (written : spread.IsWritten) :
    Derived attached (.access name spread)
  | literal {body : Text} : Derived attached (.literal body)
  | quoted {body : Text} : Derived attached (.quoted body)
  | choice {condition yes : Expression} {no : Option Expression}
    (conditional : condition.kind = .conditional) (derived : condition.Derived attached)
    (yes_value : yes.kind = .value) (yes_derived : yes.Derived attached)
    (no_value : ∀ e ∈ no, e.kind = .value) (no_derived : ∀ e ∈ no, e.Derived attached)
    (innermost : attached → no ≠ none → yes.endsOpen = false) :
    Derived attached (.choice condition yes no)
  | existence {negated : Bool} {name : Text} {chain : Option (Connective × Expression)}
    (conditional : ∀ link ∈ chain, link.2.kind = .conditional)
    (derived : ∀ link ∈ chain, link.2.Derived attached) :
    Derived attached (.existence negated name chain)
  | operation {op : Operation} {arguments : List Expression}
    (values : ∀ e ∈ arguments, e.kind = .value)
    (derived : ∀ e ∈ arguments, e.Derived attached) : Derived attached (.operation op arguments)
  | check {negated : Bool} {k : Check} {arguments : List Expression}
    {chain : Option (Connective × Expression)} (values : ∀ e ∈ arguments, e.kind = .value)
    (derived : ∀ e ∈ arguments, e.Derived attached)
    (conditional : ∀ link ∈ chain, link.2.kind = .conditional)
    (chain_derived : ∀ link ∈ chain, link.2.Derived attached) :
    Derived attached (.check negated k arguments chain)

abbrev Grammatical (e : Expression) : Prop := e.Derived False

theorem WellFormed.derived {e : Expression} (h : e.WellFormed) (attached : Prop) :
    e.Derived attached := by
  induction h with
  | access written => exact .access written
  | literal => exact .literal
  | quoted => exact .quoted
  | choice hc _ hy _ hn _ hi ihc ihy ihn => exact .choice hc ihc hy ihy hn ihn fun _ => hi
  | existence hk _ ih => exact .existence hk ih
  | operation _ hv _ ih => exact .operation hv ih
  | check _ hv _ hk _ ih ihc => exact .check hv ih hk ihc

mutual

/-- The calls of an expression that stands behind `start` tokens. -/
def callsFrom (start : Nat) : Expression → List PlacedCall
  | .access .. | .literal _ | .quoted _ => []
  | .choice condition yes no =>
    callsFrom start condition ++
      (callsFrom (start + condition.spelling.length + 1) yes ++
        alternativeCalls (start + condition.spelling.length + 1 + yes.spelling.length) no)
  | .existence negated _ chain => chainCalls (start + (negation negated).length + 1) chain
  | .operation op arguments =>
    argumentsCalls (start + 2) arguments ++
      [⟨.operation op, arguments.length, start + ((Callee.operation op).calling arguments).length⟩]
  | .check negated k arguments chain =>
    argumentsCalls (start + (negation negated).length + 2) arguments ++
      ⟨.check k, arguments.length,
          start + (negation negated).length + ((Callee.check k).calling arguments).length⟩ ::
        chainCalls (start + (negation negated).length + ((Callee.check k).calling arguments).length)
          chain

def alternativeCalls (start : Nat) : Option Expression → List PlacedCall
  | none => []
  | some no => callsFrom (start + 1) no

def chainCalls (start : Nat) : Option (Connective × Expression) → List PlacedCall
  | none => []
  | some (_, right) => callsFrom (start + 1) right

def argumentsCalls (start : Nat) : List Expression → List PlacedCall
  | [] => []
  | first :: more => callsFrom start first ++ moreCalls (start + first.spelling.length) more

def moreCalls (start : Nat) : List Expression → List PlacedCall
  | [] => []
  | next :: more =>
    callsFrom (start + 1) next ++ moreCalls (start + 1 + next.spelling.length) more

end

end Expression

namespace PlacedCall

/-- The call is written among the tokens, which `start` others precede, up to its closing
parenthesis. -/
def StandsIn (call : PlacedCall) (start : Nat) (ls : List Lexeme) : Prop :=
  ∃ front arguments after, ls = front ++ call.callee.calling arguments ++ after ∧
    arguments.length = call.count ∧
    call.closing = start + (front ++ call.callee.calling arguments).length

theorem StandsIn.within {call : PlacedCall} {start inner : Nat} {ls whole : List Lexeme}
    (h : call.StandsIn inner ls) (front after : List Lexeme)
    (hw : whole = front ++ (ls ++ after)) (hi : inner = start + front.length) :
    call.StandsIn start whole := by
  obtain ⟨front', arguments, after', rfl, hcount, hclosing⟩ := h
  refine ⟨front ++ front', arguments, after' ++ after, by simp [hw], hcount, ?_⟩
  simp only [List.length_append] at hclosing ⊢
  omega

theorem StandsIn.bounds {call : PlacedCall} {start : Nat} {ls : List Lexeme}
    (h : call.StandsIn start ls) : start < call.closing ∧ call.closing ≤ start + ls.length := by
  obtain ⟨front, arguments, after, rfl, -, hclosing⟩ := h
  simp only [List.length_append, Callee.calling, List.length_cons] at hclosing ⊢
  omega

end PlacedCall

namespace Expression
open PlacedCall

mutual

theorem standsIn_of_mem_callsFrom {start : Nat} {e : Expression} {call : PlacedCall}
    (h : call ∈ e.callsFrom start) : call.StandsIn start e.spelling := by
  match e with
  | .access _ _ | .literal _ | .quoted _ => simp [callsFrom] at h
  | .choice condition yes no =>
    simp only [callsFrom, List.mem_append] at h
    rcases h with h | h | h
    · exact (standsIn_of_mem_callsFrom h).within [] _ rfl rfl
    · exact (standsIn_of_mem_callsFrom h).within (condition.spelling ++ [.question])
        (alternativeSpelling no) (by simp [spelling]) (by simp; omega)
    · exact (standsIn_of_mem_alternativeCalls h).within
        (condition.spelling ++ .question :: yes.spelling) [] (by simp [spelling]) (by simp; omega)
  | .existence negated name chain =>
    exact (standsIn_of_mem_chainCalls h).within (negation negated ++ [.word name]) []
      (by simp [spelling]) (by simp; omega)
  | .operation op arguments =>
    simp only [callsFrom, List.mem_append, List.mem_singleton] at h
    rcases h with h | rfl
    · exact (standsIn_of_mem_argumentsCalls h).within [.operation op, .openParen] []
        (by simp [spelling]) rfl
    · exact ⟨[], arguments, [], by simp [spelling, Callee.calling, Callee.lexeme], rfl, rfl⟩
  | .check negated k arguments chain =>
    simp only [callsFrom, List.mem_append, List.mem_cons] at h
    rcases h with h | rfl | h
    · exact (standsIn_of_mem_argumentsCalls h).within
        (negation negated ++ [.check k, .openParen]) (chainSpelling chain) (by simp [spelling])
        (by simp; omega)
    · exact ⟨negation negated, arguments, chainSpelling chain,
        by simp [spelling, Callee.calling, Callee.lexeme], rfl, by simp; omega⟩
    · exact (standsIn_of_mem_chainCalls h).within
        (negation negated ++ (Callee.check k).calling arguments) []
        (by simp [spelling, Callee.calling, Callee.lexeme]) (by simp; omega)

theorem standsIn_of_mem_alternativeCalls {start : Nat} {no : Option Expression}
    {call : PlacedCall} (h : call ∈ alternativeCalls start no) :
    call.StandsIn start (alternativeSpelling no) := by
  match no with
  | none => simp [alternativeCalls] at h
  | some no =>
    exact (standsIn_of_mem_callsFrom h).within [.colon] [] (by simp [alternativeSpelling]) rfl

theorem standsIn_of_mem_chainCalls {start : Nat} {chain : Option (Connective × Expression)}
    {call : PlacedCall} (h : call ∈ chainCalls start chain) :
    call.StandsIn start (chainSpelling chain) := by
  match chain with
  | none => simp [chainCalls] at h
  | some (connective, right) =>
    exact (standsIn_of_mem_callsFrom h).within [connective.lexeme] [] (by simp [chainSpelling]) rfl

theorem standsIn_of_mem_argumentsCalls {start : Nat} {arguments : List Expression}
    {call : PlacedCall} (h : call ∈ argumentsCalls start arguments) :
    call.StandsIn start (argumentsSpelling arguments) := by
  match arguments with
  | [] => simp [argumentsCalls] at h
  | first :: more =>
    simp only [argumentsCalls, List.mem_append] at h
    rcases h with h | h
    · exact (standsIn_of_mem_callsFrom h).within [] _ rfl rfl
    · exact (standsIn_of_mem_moreCalls h).within first.spelling [] (by simp [argumentsSpelling]) rfl

theorem standsIn_of_mem_moreCalls {start : Nat} {arguments : List Expression}
    {call : PlacedCall} (h : call ∈ moreCalls start arguments) :
    call.StandsIn start (moreSpelling arguments) := by
  match arguments with
  | [] => simp [moreCalls] at h
  | next :: more =>
    simp only [moreCalls, List.mem_append] at h
    rcases h with h | h
    · exact (standsIn_of_mem_callsFrom h).within [.comma] _ (by simp [moreSpelling]; rfl) rfl
    · exact (standsIn_of_mem_moreCalls h).within (.comma :: next.spelling) []
        (by simp [moreSpelling]) (by simp; omega)

end

theorem length_moreSpelling_pos (arguments : List Expression) :
    0 < (moreSpelling arguments).length := by
  cases arguments <;> simp [moreSpelling]

theorem closing_lt_of_mem_moreCalls {start : Nat} {arguments : List Expression}
    {call : PlacedCall} (h : call ∈ moreCalls start arguments) :
    call.closing < start + (moreSpelling arguments).length := by
  induction arguments generalizing start with
  | nil => simp [moreCalls] at h
  | cons next more ih =>
    have hpos := length_moreSpelling_pos more
    simp only [moreSpelling, List.length_cons, List.length_append]
    rcases List.mem_append.mp h with h | h
    · have := (standsIn_of_mem_callsFrom h).bounds.2
      omega
    · have := ih h
      omega

theorem closing_lt_of_mem_argumentsCalls {start : Nat} {arguments : List Expression}
    {call : PlacedCall} (h : call ∈ argumentsCalls start arguments) :
    call.closing < start + (argumentsSpelling arguments).length := by
  cases arguments with
  | nil => simp [argumentsCalls] at h
  | cons first more =>
    have hpos := length_moreSpelling_pos more
    simp only [argumentsSpelling, List.length_append]
    rcases List.mem_append.mp h with h | h
    · have := (standsIn_of_mem_callsFrom h).bounds.2
      omega
    · have := closing_lt_of_mem_moreCalls h
      omega

def InOrder (calls : List PlacedCall) : Prop :=
  calls.Pairwise fun call later => call.closing < later.closing

theorem InOrder.append {calls more : List PlacedCall} (h : InOrder calls) (middle : Nat)
    (hle : ∀ call ∈ calls, call.closing ≤ middle) (hm : InOrder more)
    (hlt : ∀ call ∈ more, middle < call.closing) : InOrder (calls ++ more) :=
  List.pairwise_append.mpr ⟨h, hm, fun call hc later hl =>
    Nat.lt_of_le_of_lt (hle call hc) (hlt later hl)⟩

theorem InOrder.cons {call : PlacedCall} {more : List PlacedCall} (h : InOrder more)
    (hlt : ∀ later ∈ more, call.closing < later.closing) : InOrder (call :: more) :=
  List.pairwise_cons.mpr ⟨hlt, h⟩

mutual

/-- The calls of an expression are listed in the order of their closing parentheses. -/
theorem inOrder_callsFrom (start : Nat) (e : Expression) : InOrder (e.callsFrom start) := by
  match e with
  | .access _ _ | .literal _ | .quoted _ => exact .nil
  | .choice condition yes no =>
    have hrest := (inOrder_callsFrom (start + condition.spelling.length + 1) yes).append _
      (fun call h => (standsIn_of_mem_callsFrom h).bounds.2) (inOrder_alternativeCalls _ no)
      fun call h => (standsIn_of_mem_alternativeCalls h).bounds.1
    refine (inOrder_callsFrom start condition).append _
      (fun call h => (standsIn_of_mem_callsFrom h).bounds.2) hrest fun call h => ?_
    rcases List.mem_append.mp h with h | h
    · have := (standsIn_of_mem_callsFrom h).bounds.1
      omega
    · have := (standsIn_of_mem_alternativeCalls h).bounds.1
      omega
  | .existence negated _ chain => exact inOrder_chainCalls _ chain
  | .operation op arguments =>
    refine (inOrder_argumentsCalls (start + 2) arguments).append
      (start + 1 + (argumentsSpelling arguments).length) (fun call h => ?_)
      (List.pairwise_singleton _ _) ?_
    · have := closing_lt_of_mem_argumentsCalls h
      omega
    · simp only [List.mem_singleton, forall_eq, Callee.calling, List.length_cons]
      omega
  | .check negated k arguments chain =>
    have hcalling : ((Callee.check k).calling arguments).length =
      (argumentsSpelling arguments).length + 2 := rfl
    refine (inOrder_argumentsCalls _ arguments).append
      (start + (negation negated).length + 1 + (argumentsSpelling arguments).length)
      (fun call h => ?_)
      ((inOrder_chainCalls _ chain).cons fun later h => (standsIn_of_mem_chainCalls h).bounds.1) ?_
    · have := closing_lt_of_mem_argumentsCalls h
      omega
    · simp only [List.mem_cons, forall_eq_or_imp]
      refine ⟨by omega, fun call h => ?_⟩
      have := (standsIn_of_mem_chainCalls h).bounds.1
      omega

theorem inOrder_alternativeCalls (start : Nat) (no : Option Expression) :
    InOrder (alternativeCalls start no) := by
  match no with
  | none => exact .nil
  | some no => exact inOrder_callsFrom (start + 1) no

theorem inOrder_chainCalls (start : Nat) (chain : Option (Connective × Expression)) :
    InOrder (chainCalls start chain) := by
  match chain with
  | none => exact .nil
  | some (_, right) => exact inOrder_callsFrom (start + 1) right

theorem inOrder_argumentsCalls (start : Nat) (arguments : List Expression) :
    InOrder (argumentsCalls start arguments) := by
  match arguments with
  | [] => exact .nil
  | first :: more =>
    exact (inOrder_callsFrom start first).append _
      (fun call h => (standsIn_of_mem_callsFrom h).bounds.2) (inOrder_moreCalls _ more)
      fun call h => (standsIn_of_mem_moreCalls h).bounds.1

theorem inOrder_moreCalls (start : Nat) (arguments : List Expression) :
    InOrder (moreCalls start arguments) := by
  match arguments with
  | [] => exact .nil
  | next :: more =>
    exact (inOrder_callsFrom (start + 1) next).append _
      (fun call h => (standsIn_of_mem_callsFrom h).bounds.2) (inOrder_moreCalls _ more)
      fun call h => (standsIn_of_mem_moreCalls h).bounds.1

end

theorem exists_attached {e no : Expression} (h : e.Derived True) (ho : e.endsOpen = true)
    (hk : no.kind = .value) (hn : no.Derived True) :
    ∃ e' : Expression, e'.Derived True ∧ e'.kind = .value ∧
      e'.spelling = e.spelling ++ .colon :: no.spelling ∧
      ∀ start, e'.callsFrom start =
        e.callsFrom start ++ no.callsFrom (start + e.spelling.length + 1) := by
  induction h with
  | @choice condition yes old hc hcd hy hyd hov hod hi _ ihy iho =>
    cases old with
    | some old =>
      obtain ⟨old', hd, hk', hspell, hcalls⟩ := iho old rfl ho
      refine ⟨.choice condition yes (some old'), .choice hc hcd hy hyd (by simpa) (by simpa)
        fun ha _ => hi ha (by simp), rfl, ?_, fun start => ?_⟩
      · simp [spelling, alternativeSpelling, hspell]
      · simp only [callsFrom, alternativeCalls, hcalls, spelling, alternativeSpelling,
          List.length_append, List.length_cons, List.append_assoc]
        congr 4
        omega
    | none =>
      cases hopen : yes.endsOpen with
      | true =>
        obtain ⟨yes', hd, hk', hspell, hcalls⟩ := ihy hopen
        refine ⟨.choice condition yes' none, .choice hc hcd hk' hd hov hod (by simp), rfl, ?_,
          fun start => ?_⟩
        · simp [spelling, alternativeSpelling, hspell]
        · simp only [callsFrom, alternativeCalls, hcalls, spelling, alternativeSpelling,
            List.length_append, List.length_cons, List.append_assoc, List.append_nil]
          congr 3
          omega
      | false =>
        refine ⟨.choice condition yes (some no), .choice hc hcd hy hyd (by simpa) (by simpa)
          fun _ _ => hopen, rfl, ?_, fun start => ?_⟩
        · simp [spelling, alternativeSpelling]
        · simp only [callsFrom, alternativeCalls, spelling, alternativeSpelling,
            List.length_append, List.length_cons, List.append_assoc, List.append_nil]
          congr 3
          omega
  | _ => simp [endsOpen] at ho

/-- Another tree for the same tokens and the same calls, in which the colons are attached. -/
structure Settles (e e' : Expression) : Prop where
  derived : e'.Derived True
  kind_eq : e'.kind = e.kind
  spelling_eq : e'.spelling = e.spelling
  calls_eq : ∀ start, e'.callsFrom start = e.callsFrom start

theorem exists_settled_arguments {arguments : List Expression}
    (h : ∀ e ∈ arguments, ∃ e', e.Settles e') :
    ∃ arguments', List.Forall₂ Settles arguments arguments' := by
  induction arguments with
  | nil => exact ⟨[], .nil⟩
  | cons e more ih =>
    obtain ⟨e', he⟩ := h e (by simp)
    obtain ⟨more', hmore⟩ := ih fun e he => h e (List.mem_cons_of_mem _ he)
    exact ⟨e' :: more', .cons he hmore⟩

theorem Settles.more {arguments arguments' : List Expression}
    (h : List.Forall₂ Settles arguments arguments') :
    moreSpelling arguments' = moreSpelling arguments ∧
      ∀ start, moreCalls start arguments' = moreCalls start arguments := by
  induction h with
  | nil => exact ⟨rfl, fun _ => rfl⟩
  | cons he _ ih =>
    exact ⟨by simp [moreSpelling, he.spelling_eq, ih.1],
      fun start => by simp [moreCalls, he.calls_eq, he.spelling_eq, ih.2]⟩

theorem Settles.arguments {arguments arguments' : List Expression}
    (h : List.Forall₂ Settles arguments arguments') :
    argumentsSpelling arguments' = argumentsSpelling arguments ∧
      ∀ start, argumentsCalls start arguments' = argumentsCalls start arguments := by
  cases h with
  | nil => exact ⟨rfl, fun _ => rfl⟩
  | cons he hmore =>
    obtain ⟨hs, hc⟩ := Settles.more hmore
    exact ⟨by simp [argumentsSpelling, he.spelling_eq, hs],
      fun start => by simp [argumentsCalls, he.calls_eq, he.spelling_eq, hc]⟩

theorem Settles.values {arguments arguments' : List Expression}
    (h : List.Forall₂ Settles arguments arguments') (hv : ∀ e ∈ arguments, e.kind = .value) :
    (∀ e ∈ arguments', e.kind = .value) ∧ ∀ e ∈ arguments', e.Derived True := by
  induction h with
  | nil => exact ⟨nofun, nofun⟩
  | cons he _ ih =>
    obtain ⟨hk, hd⟩ := ih fun e he => hv e (List.mem_cons_of_mem _ he)
    exact ⟨List.forall_mem_cons.mpr ⟨he.kind_eq.trans (hv _ (by simp)), hk⟩,
      List.forall_mem_cons.mpr ⟨he.derived, hd⟩⟩

theorem Settles.chain {chain : Option (Connective × Expression)}
    (hk : ∀ link ∈ chain, link.2.kind = .conditional)
    (h : ∀ link ∈ chain, ∃ e', link.2.Settles e') :
    ∃ chain' : Option (Connective × Expression),
      (∀ link ∈ chain', link.2.kind = .conditional) ∧ (∀ link ∈ chain', link.2.Derived True) ∧
      chainSpelling chain' = chainSpelling chain ∧
      ∀ start, chainCalls start chain' = chainCalls start chain := by
  cases chain with
  | none => exact ⟨none, nofun, nofun, rfl, fun _ => rfl⟩
  | some link =>
    obtain ⟨right, hr⟩ := h link rfl
    exact ⟨some (link.1, right), by simpa using hr.kind_eq.trans (hk link rfl),
      by simpa using hr.derived, by simp [chainSpelling, hr.spelling_eq],
      fun start => by simp [chainCalls, hr.calls_eq]⟩

/-- The colon of a choice is left to one that ends the text before it. -/
theorem exists_settled_choice {condition yes condition' yes' : Expression}
    {no : Option Expression} (hc : condition.Settles condition')
    (hck : condition.kind = .conditional) (hy : yes.Settles yes') (hyk : yes.kind = .value)
    (hnk : ∀ e ∈ no, e.kind = .value) (hn : ∀ e ∈ no, ∃ e', e.Settles e') :
    ∃ e', (choice condition yes no).Settles e' := by
  have hck' := hc.kind_eq.trans hck
  have hyk' := hy.kind_eq.trans hyk
  cases no with
  | none =>
    exact ⟨.choice condition' yes' none,
      .choice hck' hc.derived hyk' hy.derived (by simp) (by simp) (by simp), rfl,
      by simp [spelling, hc.spelling_eq, hy.spelling_eq],
      fun start => by simp [callsFrom, hc.calls_eq, hy.calls_eq, hc.spelling_eq, hy.spelling_eq]⟩
  | some no =>
    obtain ⟨no', hno⟩ := hn no rfl
    have hnk' := hno.kind_eq.trans (hnk no rfl)
    cases hopen : yes'.endsOpen with
    | false =>
      exact ⟨.choice condition' yes' (some no'),
        .choice hck' hc.derived hyk' hy.derived (by simpa) (by simpa using hno.derived)
          fun _ _ => hopen, rfl,
        by simp [spelling, alternativeSpelling, hc.spelling_eq, hy.spelling_eq, hno.spelling_eq],
        fun start => by simp [callsFrom, alternativeCalls, hc.calls_eq, hy.calls_eq,
          hno.calls_eq, hc.spelling_eq, hy.spelling_eq]⟩
    | true =>
      obtain ⟨e', hd, hk, hs, hcalls⟩ := exists_attached hy.derived hopen hnk' hno.derived
      exact ⟨.choice condition' e' none,
        .choice hck' hc.derived hk hd (by simp) (by simp) (by simp), rfl,
        by simp [spelling, alternativeSpelling, hc.spelling_eq, hs, hy.spelling_eq,
          hno.spelling_eq],
        fun start => by simp [callsFrom, alternativeCalls, hc.calls_eq, hcalls, hy.calls_eq,
          hno.calls_eq, hc.spelling_eq, hy.spelling_eq]⟩

/-- Every tree of the grammar can be settled. -/
theorem exists_settled {e : Expression} (h : e.Grammatical) : ∃ e', e.Settles e' := by
  induction h with
  | @access name spread hs => exact ⟨.access name spread, .access hs, rfl, rfl, fun _ => rfl⟩
  | @literal body => exact ⟨.literal body, .literal, rfl, rfl, fun _ => rfl⟩
  | @quoted body => exact ⟨.quoted body, .quoted, rfl, rfl, fun _ => rfl⟩
  | @choice condition yes no hc _ hy _ hn _ _ ihc ihy ihn =>
    obtain ⟨condition', hcondition⟩ := ihc
    obtain ⟨yes', hyes⟩ := ihy
    exact exists_settled_choice hcondition hc hyes hy hn ihn
  | @existence negated name chain hk _ ih =>
    obtain ⟨chain', hk', hd', hs, hc⟩ := Settles.chain hk ih
    exact ⟨.existence negated name chain', .existence hk' hd', rfl, by simp [spelling, hs],
      fun start => by simp [callsFrom, hc]⟩
  | @operation op arguments hv _ ih =>
    obtain ⟨arguments', ha⟩ := exists_settled_arguments ih
    obtain ⟨hv', hd'⟩ := Settles.values ha hv
    obtain ⟨hs, hc⟩ := Settles.arguments ha
    exact ⟨.operation op arguments', .operation hv' hd', rfl, by simp [spelling, hs],
      fun start => by simp [callsFrom, hc, hs, Callee.calling, ha.length_eq]⟩
  | @check negated k arguments chain hv _ hk _ ih ihc =>
    obtain ⟨arguments', ha⟩ := exists_settled_arguments ih
    obtain ⟨hv', hd'⟩ := Settles.values ha hv
    obtain ⟨hs, hc⟩ := Settles.arguments ha
    obtain ⟨chain', hk', hcd', hcs, hcc⟩ := Settles.chain hk ihc
    exact ⟨.check negated k arguments' chain', .check hv' hd' hk' hcd', rfl,
      by simp [spelling, hs, hcs],
      fun start => by simp [callsFrom, hc, hs, hcc, Callee.calling, ha.length_eq]⟩

end Expression
end Countermand

import Countermand.Proofs.Template.Faults

/-! Chains of conditions. A chain means `a && (b || (c && ...))`, whatever its connectives are: its
conditions are evaluated from the left, each only if those before it leave the result open, and the
chain fails with the first argument that fails among those evaluated. -/
namespace Countermand
open Results

namespace Connective

def combine : Connective → Bool → Bool → Bool
  | .and, left, right => left && right
  | .or, left, right => left || right

/-- The truth on the left that leaves the result to the right. -/
def undecided : Connective → Bool
  | .and => true
  | .or => false

theorem combine_undecided (c : Connective) (right : Bool) :
    c.combine c.undecided right = right := by
  cases c <;> rfl

theorem combine_of_ne {c : Connective} {left : Bool} (h : left ≠ c.undecided) (right : Bool) :
    c.combine left right = left := by
  cases c <;> cases left <;> simp_all [combine, undecided]

end Connective

/-- What a condition is about: a name that is bound to something set, or a check of one argument. -/
inductive Subject
  | name (name : Text)
  | check (k : Check) (argument : Expression)

/-- One condition of a chain; a negation reaches no further than the condition. -/
structure Condition where
  negated : Bool
  subject : Subject

/-- A condition and the further ones with what connects each to the one before. -/
structure Chain where
  first : Condition
  more : List (Connective × Condition)

namespace Condition
open Expression

def IsWritten (a : Condition) : Prop :=
  ∀ k e, a.subject = .check k e → e.WellFormed ∧ e.kind = .value

def spelling (a : Condition) : List Lexeme :=
  negation a.negated ++
    match a.subject with
    | .name name => [.word name]
    | .check k e => .check k :: .openParen :: (e.spelling ++ [.closeParen])

def tree (a : Condition) (rest : Option (Connective × Expression)) : Expression :=
  match a.subject with
  | .name name => .existence a.negated name rest
  | .check k e => .check a.negated k [e] rest

/-- Whether a condition holds. A check holds of a list if it holds of all items, and only then the
result is negated. -/
def truth (host : Host) (b : Bindings) (a : Condition) : Except ExpansionError Bool :=
  match a.subject with
  | .name name => .ok (xor ((b.get? name).any Value.isSet) a.negated)
  | .check k e => do
    let v ← e.argument host b
    return xor (v.items.all (k.holds host)) a.negated

variable {host : Host} {b : Bindings}

theorem truth_eq_error {a : Condition} {error : ExpansionError} :
    a.truth host b = .error error ↔
      ∃ k e, a.subject = .check k e ∧ e.argument host b = .error error := by
  obtain ⟨negated, subject⟩ := a
  cases subject with
  | name name => simp [truth]
  | check k e => simp [truth, bind_eq_error]

theorem spelling_tree (a : Condition) (rest : Option (Connective × Expression)) :
    (a.tree rest).spelling = a.spelling ++ chainSpelling rest := by
  obtain ⟨negated, subject⟩ := a
  cases subject <;>
    simp [tree, spelling, Expression.spelling, argumentsSpelling, moreSpelling]

theorem kind_tree (a : Condition) (rest : Option (Connective × Expression)) :
    (a.tree rest).kind = .conditional := by
  obtain ⟨negated, subject⟩ := a
  cases subject <;> rfl

theorem IsWritten.wellFormed_tree {a : Condition} (h : a.IsWritten)
    {rest : Option (Connective × Expression)}
    (hr : ∀ link ∈ rest, link.2.kind = .conditional ∧ link.2.WellFormed) :
    (a.tree rest).WellFormed := by
  obtain ⟨negated, subject⟩ := a
  cases subject with
  | name name => exact .existence (fun link hl => (hr link hl).1) fun link hl => (hr link hl).2
  | check k e =>
    obtain ⟨hw, hk⟩ := h k e rfl
    exact .check rfl (by simpa using hk) (by simpa using hw) (fun link hl => (hr link hl).1)
      fun link hl => (hr link hl).2

theorem evaluate_tree (a : Condition) (rest : Option (Connective × Expression)) :
    (a.tree rest).evaluate host b = (do
      let left ← a.truth host b
      Evaluated.truth <$>
        evaluateChain host b (Template.expand host b .backquote none) left rest) := by
  obtain ⟨negated, subject⟩ := a
  rw [evaluate_eq]
  cases subject with
  | name name =>
    have hset : isSet b name = (b.get? name).any Value.isSet := by
      cases h : b.get? name <;> simp [isSet, h]
    simp only [tree, evaluateWith, truth, hset, ok_bind]
  | check k e =>
    simp only [tree, evaluateWith, truth, evaluateArguments_cons, evaluateArguments, argument]
    cases e.argumentWith host b (Template.expand host b .backquote none) with
    | error fault => rfl
    | ok v =>
      simp only [ok_bind, pure_eq_ok, List.flatMap_cons, List.flatMap_nil, List.append_nil]

end Condition

namespace Chain
open Expression

def spellingFrom (a : Condition) : List (Connective × Condition) → List Lexeme
  | [] => a.spelling
  | (c, next) :: more => a.spelling ++ c.lexeme :: spellingFrom next more

def treeFrom (a : Condition) : List (Connective × Condition) → Expression
  | [] => a.tree none
  | (c, next) :: more => a.tree (some (c, treeFrom next more))

/-- The result where all conditions are true or false, grouped to the right. -/
def valueFrom (holds : Condition → Bool) (a : Condition) : List (Connective × Condition) → Bool
  | [] => holds a
  | (c, next) :: more => c.combine (holds a) (valueFrom holds next more)

/-- From a condition on another one is reached, if each between them leaves the result open. -/
inductive ReachesFrom (host : Host) (b : Bindings) :
    Condition → List (Connective × Condition) → Condition → Prop
  | here {a : Condition} {more : List (Connective × Condition)} : ReachesFrom host b a more a
  | next {a next x : Condition} {c : Connective} {more : List (Connective × Condition)}
    (leaves : a.truth host b = .ok c.undecided) (reaches : ReachesFrom host b next more x) :
    ReachesFrom host b a ((c, next) :: more) x

def conditions (chain : Chain) : List Condition := chain.first :: chain.more.map Prod.snd

def spelling (chain : Chain) : List Lexeme := spellingFrom chain.first chain.more

def value (holds : Condition → Bool) (chain : Chain) : Bool :=
  valueFrom holds chain.first chain.more

def Reaches (host : Host) (b : Bindings) (chain : Chain) (x : Condition) : Prop :=
  ReachesFrom host b chain.first chain.more x

variable {host : Host} {b : Bindings}

theorem spelling_treeFrom (a : Condition) (more : List (Connective × Condition)) :
    (treeFrom a more).spelling = spellingFrom a more := by
  induction more generalizing a with
  | nil => simp [treeFrom, spellingFrom, Condition.spelling_tree, chainSpelling]
  | cons link more ih => simp [treeFrom, spellingFrom, Condition.spelling_tree, chainSpelling, ih]

theorem kind_treeFrom (a : Condition) (more : List (Connective × Condition)) :
    (treeFrom a more).kind = .conditional := by
  cases more with
  | nil => exact a.kind_tree none
  | cons link more => exact a.kind_tree _

theorem wellFormed_treeFrom {a : Condition} {more : List (Connective × Condition)}
    (ha : a.IsWritten) (hm : ∀ link ∈ more, link.2.IsWritten) : (treeFrom a more).WellFormed := by
  induction more generalizing a with
  | nil => exact ha.wellFormed_tree (by simp)
  | cons link more ih =>
    obtain ⟨hnext, hmore⟩ := List.forall_mem_cons.mp hm
    refine ha.wellFormed_tree ?_
    rintro _ ⟨⟩
    exact ⟨kind_treeFrom _ _, ih hnext hmore⟩

theorem evaluate_treeFrom_cons (a next : Condition) (c : Connective)
    (more : List (Connective × Condition)) :
    (treeFrom a ((c, next) :: more)).evaluate host b = (do
      let left ← a.truth host b
      if left = c.undecided then (treeFrom next more).evaluate host b
      else .ok (.truth left)) := by
  -- a condition yields nothing but a truth value, so that reading it as one changes nothing
  have hright : Evaluated.truth <$> Evaluated.isTruthy <$> (treeFrom next more).evaluateWith host b
      (Template.expand host b .backquote none) = (treeFrom next more).evaluate host b := by
    rw [← evaluate_eq]
    cases hv : (treeFrom next more).evaluate host b with
    | error fault => rfl
    | ok v =>
      rw [evaluate_eq] at hv
      obtain ⟨holds, rfl⟩ := exists_truth_of_conditional (kind_treeFrom next more) hv
      rfl
  rw [treeFrom, Condition.evaluate_tree]
  refine bind_congr fun left => ?_
  cases c with
  | and =>
    cases left with
    | true => simpa [evaluateChain, Connective.undecided] using hright
    | false => rw [evaluateChain]; rfl
  | or =>
    cases left with
    | true => rw [evaluateChain]; rfl
    | false => simpa [evaluateChain, Connective.undecided] using hright

theorem evaluate_treeFrom_eq_error {a : Condition} {more : List (Connective × Condition)}
    {error : ExpansionError} :
    (treeFrom a more).evaluate host b = .error error ↔
      ∃ x, ReachesFrom host b a more x ∧ x.truth host b = .error error := by
  induction more generalizing a with
  | nil =>
    rw [treeFrom, Condition.evaluate_tree]
    simp only [evaluateChain, bind_eq_error, map_eq_error, reduceCtorEq, and_false, exists_false,
      or_false]
    constructor
    · exact fun h => ⟨a, .here, h⟩
    · rintro ⟨x, ⟨⟩, h⟩
      exact h
  | cons link more ih =>
    obtain ⟨c, next⟩ := link
    rw [evaluate_treeFrom_cons, bind_eq_error]
    constructor
    · rintro (h | ⟨left, hleft, h⟩)
      · exact ⟨a, .here, h⟩
      · split_ifs at h with hopen
        obtain ⟨x, hx, h⟩ := ih.mp h
        exact ⟨x, .next (hopen ▸ hleft) hx, h⟩
    · rintro ⟨x, hx, h⟩
      cases hx with
      | here => exact .inl h
      | next leaves reaches => exact .inr ⟨_, leaves, by simpa using ih.mpr ⟨x, reaches, h⟩⟩

theorem evaluate_treeFrom_eq_value {a : Condition} {more : List (Connective × Condition)}
    {holds : Condition → Bool}
    (h : ∀ x, ReachesFrom host b a more x → x.truth host b = .ok (holds x)) :
    (treeFrom a more).evaluate host b = .ok (.truth (valueFrom holds a more)) := by
  induction more generalizing a with
  | nil =>
    rw [treeFrom, Condition.evaluate_tree, h a .here, ok_bind, evaluateChain]
    rfl
  | cons link more ih =>
    obtain ⟨c, next⟩ := link
    have ha := h a .here
    rw [evaluate_treeFrom_cons, ha, ok_bind, valueFrom]
    split_ifs with hopen
    · rw [hopen] at ha ⊢
      rw [Connective.combine_undecided]
      exact ih fun x hx => h x (.next ha hx)
    · rw [Connective.combine_of_ne hopen]

/-- The text of a chain is accepted as a condition. Its value is that of the conditions, grouped to
the right, as soon as all that are reached have one; otherwise it fails, with the failure of the
argument of a condition that is reached, which is the last one to be evaluated. -/
theorem evaluate_grouped_right {chain : Chain} (hw : ∀ a ∈ chain.conditions, a.IsWritten) {t : Text}
    {ts : List Token} (ht : Token.ofText t = .ok ts) (hs : lexemes ts = chain.spelling)
    (host : Host) (b : Bindings) :
    ∃ e, parseCondition t = .ok e ∧
      (∀ holds, (∀ a, chain.Reaches host b a → a.truth host b = .ok (holds a)) →
        e.evaluate host b = .ok (.truth (chain.value holds))) ∧
      ∀ error, e.evaluate host b = .error error ↔
        ∃ a k argument, chain.Reaches host b a ∧ a.subject = .check k argument ∧
          argument.argument host b = .error error := by
  obtain ⟨hfirst, hmore⟩ := List.forall_mem_cons.mp hw
  have hwritten : ∀ link ∈ chain.more, link.2.IsWritten := fun link hl =>
    hmore link.2 (List.mem_map_of_mem hl)
  refine ⟨treeFrom chain.first chain.more, ?_, fun holds h => evaluate_treeFrom_eq_value h,
    fun error => ?_⟩
  · exact (parse_eq_ok_iff ht _).2.mpr ⟨wellFormed_treeFrom hfirst hwritten,
      hs.trans (spelling_treeFrom _ _).symm, kind_treeFrom _ _⟩
  · simp only [evaluate_treeFrom_eq_error, Condition.truth_eq_error, Reaches]
    constructor
    · rintro ⟨a, ha, k, argument, hk, h⟩
      exact ⟨a, k, argument, ha, hk, h⟩
    · rintro ⟨a, k, argument, ha, hk, h⟩
      exact ⟨a, ha, k, argument, hk, h⟩

def guarded : Chain where
  first := ⟨false, .name "A".toList⟩
  more := [
    (.and, ⟨true, .check .present (.access "B".toList (.joined (some " ".toList)))⟩),
    (.or, ⟨false, .check .directory
      (.operation .join [.literal "x".toList, .access "B".toList .plain])⟩)]

def guardedTokens : List Token := [
  ⟨.word "A".toList, 1⟩, ⟨.and, 3⟩, ⟨.not, 6⟩, ⟨.check .present, 7⟩, ⟨.openParen, 13⟩,
  ⟨.dollar, 14⟩, ⟨.word "B".toList, 15⟩, ⟨.ellipsis, 16⟩, ⟨.closeParen, 19⟩, ⟨.or, 21⟩,
  ⟨.check .directory, 24⟩, ⟨.openParen, 29⟩, ⟨.operation .join, 30⟩, ⟨.openParen, 34⟩,
  ⟨.literal "x".toList, 35⟩, ⟨.comma, 38⟩, ⟨.dollar, 40⟩, ⟨.word "B".toList, 41⟩,
  ⟨.closeParen, 42⟩, ⟨.closeParen, 43⟩]

def guardedBindings : Bindings :=
  [("A".toList, .flag true), ("B".toList, .list ["x".toList, "y".toList])]

theorem isWritten_guarded : ∀ a ∈ guarded.conditions, a.IsWritten := by
  have hspread : WellFormed (.access "B".toList (.joined (some " ".toList))) := .access (.inr rfl)
  have hplain : WellFormed (.access "B".toList .plain) := .access (.inl rfl)
  have hjoin : WellFormed (.operation .join [.literal "x".toList, .access "B".toList .plain]) := by
    refine .operation rfl (by simp [kind]) ?_
    simpa using ⟨.literal, hplain⟩
  intro a ha k e he
  simp only [guarded, conditions, List.map_cons, List.map_nil, List.mem_cons, List.not_mem_nil,
    or_false] at ha
  rcases ha with rfl | rfl | rfl
  · simp at he
  · obtain ⟨rfl, rfl⟩ := Subject.check.inj he
    exact ⟨hspread, rfl⟩
  · obtain ⟨rfl, rfl⟩ := Subject.check.inj he
    exact ⟨hjoin, rfl⟩

theorem ofText_guarded :
    Token.ofText "A && !exists($B...) || isdir(join('x', $B))".toList = .ok guardedTokens := by
  with_unfolding_all rfl

/-- No item of the list is a file, and that decides: the join that would fail is not reached. -/
theorem evaluate_grouped_right_guarded :
    (∀ a ∈ guarded.conditions, a.IsWritten) ∧
      Token.ofText "A && !exists($B...) || isdir(join('x', $B))".toList = .ok guardedTokens ∧
      lexemes guardedTokens = guarded.spelling ∧
      ∃ e, parseCondition "A && !exists($B...) || isdir(join('x', $B))".toList = .ok e ∧
        e.evaluate Template.emptyHost guardedBindings = .ok (.truth true) := by
  have hs : lexemes guardedTokens = guarded.spelling := by decide
  obtain ⟨e, he, hvalue, -⟩ := evaluate_grouped_right isWritten_guarded ofText_guarded hs
    Template.emptyHost guardedBindings
  refine ⟨isWritten_guarded, ofText_guarded, hs, e, he, hvalue (fun _ => true) fun a ha => ?_⟩
  have hsecond : Condition.truth Template.emptyHost guardedBindings
      ⟨true, .check .present (.access "B".toList (.joined (some " ".toList)))⟩ = .ok true := by
    rfl
  cases ha with
  | here => rfl
  | next leaves reaches =>
    cases reaches with
    | here => exact hsecond
    | next leaves reaches =>
      exact absurd (hsecond.symm.trans leaves) (by simp [Connective.undecided])

end Chain
end Countermand

import Countermand.Proofs.Expression.Grammar
import Countermand.Proofs.Results
import Countermand.Expression.Evaluation

/-! The kinds of expressions foretell what they yield: a condition a truth value, and anything
else text or a list. So the only step of an evaluation that can fail, strings apart, is a join whose
second argument is a list. -/
namespace Countermand
open Results

def Evaluated.kind : Evaluated → ExpressionKind
  | .truth _ => .conditional
  | .text _ | .list _ => .value

theorem Evaluated.cases_of_value {v : Evaluated} (h : v.kind = .value) :
    (∃ body, v = .text body) ∨ ∃ items, v = .list items := by
  cases v with
  | text body => exact .inl ⟨body, rfl⟩
  | list items => exact .inr ⟨items, rfl⟩
  | truth holds => simp [kind] at h

namespace Expression

variable {host : Host} {b : Bindings} {nested : Text → Except ExpansionError Expanded}

theorem kind_lookup (b : Bindings) (name : Text) : (lookup b name).kind = .value := by
  unfold lookup
  split <;> rfl

theorem kind_of_evaluateName {name : Text} {spread : Spread} {v : Evaluated}
    (h : evaluateName b name spread = .ok v) : v.kind = .value := by
  unfold evaluateName at h
  split at h
  · rename_i items delimiter _
    cases delimiter with
    | none => simp [joinSpread] at h
    | some d =>
      obtain rfl := Except.ok.inj h
      rfl
  · obtain rfl := Except.ok.inj h
    exact kind_lookup b name

theorem kind_of_join {values : List Evaluated} {v : Evaluated} (h : join values = .ok v) :
    v.kind = .value := by
  unfold join at h
  split at h
  · obtain rfl := Except.ok.inj h
    rfl
  · simp at h

theorem kind_of_operate {op : Operation} {first? : Option Expression} {values : List Evaluated}
    {v : Evaluated} (h : operate host op first? values = .ok v) : v.kind = .value := by
  unfold operate at h
  split at h
  · obtain rfl := Except.ok.inj h
    rfl
  · split at h
    · rename_i name delimiter
      cases delimiter with
      | none => simp [joinSpread] at h
      | some d =>
        obtain rfl := Except.ok.inj h
        rfl
    · obtain rfl := Except.ok.inj h
      rfl
  · obtain rfl := Except.ok.inj h
    rfl

theorem exists_truth_of_conditional {e : Expression} (hk : e.kind = .conditional) {v : Evaluated}
    (h : e.evaluateWith host b nested = .ok v) : ∃ holds, v = .truth holds := by
  cases e with
  | existence negated name chain =>
    rw [evaluateWith] at h
    obtain ⟨holds, -, rfl⟩ := map_eq_ok.mp h
    exact ⟨holds, rfl⟩
  | check negated k arguments chain =>
    rw [evaluateWith] at h
    obtain ⟨values, -, h⟩ := bind_eq_ok.mp h
    obtain ⟨holds, -, rfl⟩ := map_eq_ok.mp h
    exact ⟨holds, rfl⟩
  | _ => simp [kind] at hk

theorem kind_of_evaluateWith {e : Expression} (hw : e.WellFormed) {v : Evaluated}
    (h : e.evaluateWith host b nested = .ok v) : v.kind = e.kind := by
  induction e using induction_on_parts generalizing v with
  | step e ih =>
    cases hw with
    | access =>
      rw [evaluateWith] at h
      exact kind_of_evaluateName h
    | literal =>
      rw [evaluateWith] at h
      obtain rfl := Except.ok.inj h
      rfl
    | quoted =>
      rw [evaluateWith] at h
      obtain ⟨x, -, rfl⟩ := map_eq_ok.mp h
      cases x <;> rfl
    | @choice condition yes no _ _ yes_value yes_wellFormed no_value no_wellFormed _ =>
      rw [evaluateWith] at h
      obtain ⟨c, -, h⟩ := bind_eq_ok.mp h
      split at h
      · exact (ih yes .yes yes_wellFormed h).trans yes_value
      · cases no with
        | none =>
          rw [evaluateAlternative] at h
          obtain rfl := Except.ok.inj h
          rfl
        | some no => exact (ih no .no (no_wellFormed no rfl) h).trans (no_value no rfl)
    | existence =>
      obtain ⟨holds, rfl⟩ := exists_truth_of_conditional rfl h
      rfl
    | operation =>
      rw [evaluateWith] at h
      obtain ⟨values, -, h⟩ := bind_eq_ok.mp h
      split at h
      · exact kind_of_join h
      · exact kind_of_operate h
    | check =>
      obtain ⟨holds, rfl⟩ := exists_truth_of_conditional rfl h
      rfl

/-- What an argument hands over: a name that is spread its value as it is. -/
def argumentWith (host : Host) (b : Bindings) (nested : Text → Except ExpansionError Expanded) :
    Expression → Except ExpansionError Evaluated
  | .access name (.joined _) => .ok (lookup b name)
  | e => e.evaluateWith host b nested

theorem argumentWith_eq {e : Expression}
    (h : ∀ name delimiter, e ≠ .access name (.joined delimiter)) :
    e.argumentWith host b nested = e.evaluateWith host b nested := by
  rw [argumentWith]
  exact h

theorem evaluateArguments_cons (e : Expression) (arguments : List Expression) :
    evaluateArguments host b nested (e :: arguments) = (do
      let v ← e.argumentWith host b nested
      return v :: (← evaluateArguments host b nested arguments)) := by
  unfold argumentWith
  split
  · rw [evaluateArguments]
    rfl
  · rename_i h
    rw [evaluateArguments]
    exact h

theorem forall₂_of_evaluateArguments {arguments : List Expression} {values : List Evaluated}
    (h : evaluateArguments host b nested arguments = .ok values) :
    List.Forall₂ (fun e v => e.argumentWith host b nested = .ok v) arguments values := by
  induction arguments generalizing values with
  | nil =>
    rw [evaluateArguments] at h
    obtain rfl := Except.ok.inj h
    exact .nil
  | cons e arguments ih =>
    rw [evaluateArguments_cons] at h
    obtain ⟨v, hv, h⟩ := bind_eq_ok.mp h
    obtain ⟨more, hmore, h⟩ := bind_eq_ok.mp h
    obtain rfl := Except.ok.inj h
    exact .cons hv (ih hmore)

theorem exists_of_evaluateArguments_error {arguments : List Expression} {error : ExpansionError}
    (h : evaluateArguments host b nested arguments = .error error) :
    ∃ e ∈ arguments, e.evaluateWith host b nested = .error error := by
  induction arguments with
  | nil => simp [evaluateArguments] at h
  | cons e arguments ih =>
    rw [evaluateArguments_cons] at h
    rcases bind_eq_error.mp h with he | ⟨v, -, h⟩
    · refine ⟨e, by simp, ?_⟩
      unfold argumentWith at he
      split at he
      · simp at he
      · exact he
    · rcases bind_eq_error.mp h with hmore | ⟨values, -, h⟩
      · obtain ⟨e', hmem, he⟩ := ih hmore
        exact ⟨e', List.mem_cons_of_mem e hmem, he⟩
      · simp at h

theorem kind_of_argumentWith {e : Expression} (hw : e.WellFormed) (hk : e.kind = .value)
    {v : Evaluated} (h : e.argumentWith host b nested = .ok v) : v.kind = .value := by
  unfold argumentWith at h
  split at h
  · obtain rfl := Except.ok.inj h
    exact kind_lookup b _
  · exact (kind_of_evaluateWith hw h).trans hk

theorem evaluateName_ne_error {name : Text} {spread : Spread} (hw : spread.IsWritten)
    (error : ExpansionError) : evaluateName b name spread ≠ .error error := by
  rcases hw with rfl | rfl
  · cases h : lookup b name <;> simp [evaluateName, h]
  · cases h : lookup b name <;> simp [evaluateName, h, joinSpread]

theorem operate_ne_error {op : Operation} {arguments : List Expression}
    (hw : ∀ e ∈ arguments, e.WellFormed) (values : List Evaluated) (error : ExpansionError) :
    operate host op arguments.head? values ≠ .error error := by
  intro h
  unfold operate at h
  split at h
  · simp at h
  · split at h
    · rename_i name delimiter hfirst
      cases hw _ (List.mem_of_head? hfirst) with
      | access written =>
        obtain rfl : delimiter = some " ".toList := by simpa [Spread.IsWritten] using written
        simp [joinSpread] at h
    · simp at h
  · simp at h

/-- A join of two values fails only on a list for the second one. -/
theorem exists_list_of_join_error {x v : Evaluated} (hv : v.kind = .value) {error : ExpansionError}
    (h : join [x, v] = .error error) :
    error = .evaluation (.listSeparator .join 2) ∧ ∃ items, v = .list items := by
  rcases Evaluated.cases_of_value hv with ⟨body, rfl⟩ | ⟨items, rfl⟩
  · simp [join] at h
  · exact ⟨(Except.error.inj h).symm, items, rfl⟩

abbrev IsWithin : Expression → Expression → Prop := Relation.ReflTransGen IsPart

/-- How the evaluation of an expression can fail. -/
inductive Fault (host : Host) (b : Bindings) (nested : Text → Except ExpansionError Expanded)
    (e : Expression) : ExpansionError → Prop
  | string {body : Text} {error : ExpansionError} (mem : .quoted body ∈ e.spelling)
    (fails : nested body = .error error) : Fault host b nested e error
  | separator {x s : Expression} {items : List Text}
    (call : (operation .join [x, s]).IsWithin e)
    (list : s.argumentWith host b nested = .ok (.list items)) :
    Fault host b nested e (.evaluation (.listSeparator .join 2))

theorem IsPart.fault {part e : Expression} (hp : part.IsPart e) {error : ExpansionError}
    (h : part.Fault host b nested error) : e.Fault host b nested error := by
  cases h with
  | string mem fails => exact .string (hp.mem_spelling mem) fails
  | separator call list => exact .separator (call.tail hp) list

theorem exists_of_evaluateChain_error {left : Bool} {chain : Option (Connective × Expression)}
    {error : ExpansionError} (h : evaluateChain host b nested left chain = .error error) :
    ∃ link ∈ chain, link.2.evaluateWith host b nested = .error error := by
  match chain with
  | none => simp [evaluateChain] at h
  | some (.and, right) =>
    rw [evaluateChain] at h
    split at h
    · exact ⟨_, rfl, map_eq_error.mp h⟩
    · simp at h
  | some (.or, right) =>
    rw [evaluateChain] at h
    split at h
    · simp at h
    · exact ⟨_, rfl, map_eq_error.mp h⟩

theorem exists_of_join_error {arguments : List Expression}
    (hw : (operation .join arguments).WellFormed) {values : List Evaluated}
    (hv : evaluateArguments host b nested arguments = .ok values) {error : ExpansionError}
    (h : join values = .error error) : (operation .join arguments).Fault host b nested error := by
  cases hw with
  | operation arity value wellFormed =>
    obtain ⟨x, s, rfl⟩ := List.length_eq_two.mp arity
    cases forall₂_of_evaluateArguments hv with
    | cons _ hrest =>
      cases hrest with
      | @cons _ v _ _ hs hnil =>
        cases hnil
        have hkind : v.kind = .value :=
          kind_of_argumentWith (wellFormed s (by simp)) (value s (by simp)) hs
        obtain ⟨rfl, items, rfl⟩ := exists_list_of_join_error hkind h
        exact .separator .refl hs

/-- An evaluation fails only in a string or in a join by a list. -/
theorem fault_of_evaluateWith_error {e : Expression} (hw : e.WellFormed) {error : ExpansionError}
    (h : e.evaluateWith host b nested = .error error) : e.Fault host b nested error := by
  induction e using induction_on_parts with
  | step e ih =>
    have part {p : Expression} (hp : p.IsPart e) (h : p.evaluateWith host b nested = .error error) :
        e.Fault host b nested error :=
      hp.fault (ih p hp (hp.wellFormed hw) h)
    cases e with
    | access name spread =>
      cases hw with
      | access written =>
        rw [evaluateWith] at h
        exact absurd h (evaluateName_ne_error written error)
    | literal body => simp [evaluateWith] at h
    | quoted body =>
      rw [evaluateWith] at h
      exact .string (by simp [spelling]) (map_eq_error.mp h)
    | choice condition yes no =>
      rw [evaluateWith] at h
      rcases bind_eq_error.mp h with hc | ⟨c, -, h⟩
      · exact part .condition hc
      · split at h
        · exact part .yes h
        · cases no with
          | none => simp [evaluateAlternative] at h
          | some no => exact part .no h
    | existence negated name chain =>
      rw [evaluateWith] at h
      obtain ⟨⟨connective, right⟩, rfl, hright⟩ :=
        exists_of_evaluateChain_error (map_eq_error.mp h)
      exact part .chain hright
    | operation op arguments =>
      rw [evaluateWith] at h
      rcases bind_eq_error.mp h with harguments | ⟨values, hvalues, h⟩
      · obtain ⟨argument, mem, hargument⟩ := exists_of_evaluateArguments_error harguments
        exact part (.argument mem) hargument
      · by_cases hop : op = .join
        · subst hop
          exact exists_of_join_error hw hvalues (by simpa using h)
        · rw [if_neg hop] at h
          cases hw with
          | operation _ _ wellFormed => exact absurd h (operate_ne_error wellFormed values error)
    | check negated k arguments chain =>
      rw [evaluateWith] at h
      rcases bind_eq_error.mp h with harguments | ⟨values, -, h⟩
      · obtain ⟨argument, mem, hargument⟩ := exists_of_evaluateArguments_error harguments
        exact part (.checked mem) hargument
      · obtain ⟨⟨connective, right⟩, rfl, hright⟩ :=
          exists_of_evaluateChain_error (map_eq_error.mp h)
        exact part .checkChain hright

end Expression
end Countermand

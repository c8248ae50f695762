import Countermand.Proofs.Expression.Obstacles

/-! Looking at the first token loses no reading and no error. If instead all forms of an expression
were tried in order, and of the errors the one kept that got furthest, the outcome would be the
same. -/
namespace Countermand
open Results

namespace ParseError

/-- How far a reading got: to the token that is in the way, or else to the end. -/
def reach : ParseError → ℕ∞
  | .token error => error.column
  | .unexpected _ found => found.column
  | .endOfInput | .argumentCount .. => ⊤

/-- No alternative is tried once a call had a wrong number of arguments. -/
def isFatal : ParseError → Bool
  | .argumentCount .. => true
  | _ => false

/-- The error that got further, and the earlier one of two that got as far. -/
def furthest : Option ParseError → ParseError → ParseError
  | some current, candidate => if candidate.reach ≤ current.reach then current else candidate
  | none, candidate => candidate

@[simp] theorem isFatal_unexpected (expected : Goal) (found : Token) :
    (unexpected expected found).isFatal = false := rfl

@[simp] theorem furthest_none (candidate : ParseError) : furthest none candidate = candidate := rfl

theorem furthest_of_le {current candidate : ParseError} (h : candidate.reach ≤ current.reach) :
    furthest (some current) candidate = current := if_pos h

theorem furthest_of_lt {current candidate : ParseError} (h : current.reach < candidate.reach) :
    furthest (some current) candidate = candidate := if_neg (not_le.mpr h)

@[simp] theorem furthest_unexpected (expected later : Goal) (found : Token) :
    furthest (some (.unexpected expected found)) (.unexpected later found) =
      .unexpected expected found := furthest_of_le le_rfl

end ParseError

namespace Token

def Ascending (ts : List Token) : Prop := ts.Pairwise fun t later => t.column < later.column

theorem Ascending.le_column {t : Token} {ts : List Token} (h : Ascending (t :: ts)) :
    ∀ u ∈ t :: ts, t.column ≤ u.column :=
  List.forall_mem_cons.mpr ⟨le_rfl, fun u hu => ((List.pairwise_cons.mp h).1 u hu).le⟩

theorem ascending_of_scan {column : Nat} {t : Text} {ts : List Token}
    (h : scan column t = .ok ts) : Ascending ts ∧ ∀ u ∈ ts, column ≤ u.column := by
  fun_induction scan column t generalizing ts with
  | case1 =>
    obtain rfl := Except.ok.inj h
    exact ⟨.nil, List.forall_mem_nil _⟩
  | case2 column c cs hc ih =>
    obtain ⟨hts, hle⟩ := ih h
    exact ⟨hts, fun u hu => Nat.le_of_succ_le (hle u hu)⟩
  | case3 => simp at h
  | case4 column c cs hc x rest hx ih =>
    obtain ⟨more, hmore, h⟩ := bind_eq_ok.mp h
    obtain rfl := Except.ok.inj h
    obtain ⟨hts, hle⟩ := ih hmore
    have hpos := List.length_pos_iff.mpr (spelling_append_of_lexeme? hx).2
    refine ⟨List.pairwise_cons.mpr ⟨fun u hu => ?_, hts⟩,
      List.forall_mem_cons.mpr ⟨le_rfl, fun u hu => ?_⟩⟩
    · have := hle u hu
      simp only
      omega
    · have := hle u hu
      omega

end Token

namespace Expression
open ParseError Token

/-- The first of some alternatives that can be read. An error that is not fatal lets the next one be
tried; `best` is the error that is kept so far. -/
def firstOf {α : Type} (best : Option ParseError) :
    List (Except ParseError α) → Except ParseError α
  | [] => .error (best.getD .endOfInput)
  | .ok a :: _ => .ok a
  | .error fault :: more =>
    if fault.isFatal then .error fault else firstOf (some (furthest best fault)) more

@[simp] theorem firstOf_nil {α : Type} (fault : ParseError) :
    firstOf (some fault) ([] : List (Except ParseError α)) = .error fault := rfl

@[simp] theorem firstOf_ok {α : Type} (best : Option ParseError) (a : α)
    (more : List (Except ParseError α)) : firstOf best (.ok a :: more) = .ok a := rfl

@[simp] theorem firstOf_unexpected {α : Type} (best : Option ParseError) (expected : Goal)
    (found : Token) (more : List (Except ParseError α)) :
    firstOf best (.error (.unexpected expected found) :: more) =
      firstOf (some (furthest best (.unexpected expected found))) more := by
  simp [firstOf]

/-- An alternative decides if no error before it or behind it gets further. -/
theorem firstOf_decided {α : Type} {best : Option ParseError} {x : Except ParseError α}
    (hx : ∀ fault, x = .error fault → furthest best fault = fault) (later : List ParseError)
    (hl : ∀ l ∈ later, l.isFatal = false ∧ ∀ fault, x = .error fault → l.reach ≤ fault.reach) :
    firstOf best (x :: later.map .error) = x := by
  cases x with
  | ok a => rfl
  | error fault =>
    rw [firstOf]
    split
    · rfl
    · rw [hx fault rfl]
      induction later with
      | nil => rfl
      | cons l more ih =>
        obtain ⟨hfatal, hle⟩ := hl l (by simp)
        rw [List.map_cons, firstOf, if_neg (by simp [hfatal]), furthest_of_le (hle fault rfl)]
        exact ih fun l hm => hl l (List.mem_cons_of_mem _ hm)

def tryOperation : (tokens : List Token) → Reading Expression tokens
  | ⟨.operation op, _⟩ :: rest => do
    let r ← readArguments rest
    let e ← callOperation op r.1
    return (e, ⟨r.2, Nat.lt_succ_of_lt r.2.2⟩)
  | t :: _ => .error (.unexpected (.token .call) t)
  | [] => .error .endOfInput

def tryLiteral : (tokens : List Token) → Reading Expression tokens
  | ⟨.literal body, _⟩ :: rest => .ok (.literal body, ⟨rest, Nat.lt_succ_self _⟩)
  | t :: _ => .error (.unexpected (.token .literal) t)
  | [] => .error .endOfInput

def tryQuoted : (tokens : List Token) → Reading Expression tokens
  | ⟨.quoted body, _⟩ :: rest => .ok (.quoted body, ⟨rest, Nat.lt_succ_self _⟩)
  | t :: _ => .error (.unexpected (.token .quoted) t)
  | [] => .error .endOfInput

def tryAccess : (tokens : List Token) → Reading Expression tokens
  | ⟨.dollar, _⟩ :: rest => do
    let r ← readAccessor rest
    return (r.1, ⟨r.2, Nat.lt_succ_of_lt r.2.2⟩)
  | t :: _ => .error (.unexpected (.token .dollar) t)
  | [] => .error .endOfInput

/-- The forms of a value in the order in which they are tried. -/
def valueForms (tokens : List Token) : List (Reading Expression tokens) :=
  [tryOperation tokens, tryLiteral tokens, tryQuoted tokens, readChoice tokens, tryAccess tokens]

theorem Admits.refl (A : Language Lexeme) : Admits A [] A := .of_mem fun _ h => h

theorem Obstacle.le_reach {L : Language Lexeme} {ts : List Token} {fault : ParseError}
    (h : Obstacle L ts fault) {column : Nat} (hc : ∀ u ∈ ts, column ≤ u.column) :
    column ≤ fault.reach := by
  cases h with
  | unexpected hs =>
    have := hc _ (hs ▸ List.mem_append_cons_self)
    simpa [reach] using this
  | trailing hs =>
    have := hc _ (hs ▸ List.mem_append_cons_self)
    simpa [reach] using this
  | ended | miscalled => simp [reach]

theorem Obstacle.lt_reach {L : Language Lexeme} {t : Token} {ts rest : List Token}
    {fault : ParseError} (h : Obstacle L ([] ++ rest) fault) (hs : rest <:+ ts)
    (hc : Ascending (t :: ts)) : t.column < fault.reach := by
  have hle : ((t.column + 1 : Nat) : ℕ∞) ≤ fault.reach :=
    h.le_reach fun u hu => (List.pairwise_cons.mp hc).1 u (hs.subset hu)
  exact lt_of_lt_of_le (by exact_mod_cast Nat.lt_succ_self _) hle

theorem Obstacle.le_reach_of_suffix {L : Language Lexeme} {t : Token} {ts rest : List Token}
    {fault : ParseError} (h : Obstacle L ([] ++ rest) fault) (hs : rest <:+ t :: ts)
    (hc : Ascending (t :: ts)) : t.column ≤ fault.reach :=
  h.le_reach fun u hu => hc.le_column u (hs.subset hu)

theorem suffix_tail {t : Token} {ts rest : List Token} (hs : rest <:+ t :: ts)
    (hl : rest.length < (t :: ts).length) : rest <:+ ts := by
  rcases List.suffix_cons_iff.mp hs with rfl | hs
  · exact absurd hl (lt_irrefl _)
  · exact hs

theorem readCondition_lt_reach {t : Token} {ts : List Token} (hc : Ascending (t :: ts))
    (ho : OpensCondition t.lexeme) {fault : ParseError}
    (h : readCondition (t :: ts) = .error fault) : t.column < fault.reach := by
  obtain ⟨x, column⟩ := t
  obtain ⟨name, rfl⟩ | rfl | ⟨k, rfl⟩ := ho
  · simp only [readCondition, readAtom] at h
    rcases bind_eq_error.mp h with h | ⟨_, _, h⟩
    · exact (readChain_obstacle h (.refl _)).lt_reach (List.suffix_refl _) hc
    · simp at h
  · simp only [readCondition] at h
    rcases bind_eq_error.mp h with h | ⟨_, _, h⟩
    · exact (readAtom_obstacle h (.refl _)).lt_reach (List.suffix_refl _) hc
    · simp at h
  · simp only [readCondition, readAtom] at h
    rcases bind_eq_error.mp h with h | ⟨⟨arguments, left, hl⟩, ha, h⟩
    · exact (readArguments_obstacle h (.refl _)).lt_reach (List.suffix_refl _) hc
    rcases bind_eq_error.mp h with h | ⟨_, _, h⟩
    · obtain ⟨-, rfl⟩ := checkArity_eq_error.mp h
      exact WithTop.coe_lt_top _
    rcases bind_eq_error.mp h with h | ⟨_, _, h⟩
    · exact (readChain_obstacle h (.refl _)).lt_reach (readArguments_suffix ha) hc
    · simp at h

theorem exists_obstacle_behind {tokens after : List Token} {condition : Expression}
    {hl : after.length < tokens.length} (hc : readCondition tokens = .ok (condition, ⟨after, hl⟩))
    {fault : ParseError} (h : readChoice tokens = .error fault) :
    ∃ L rest, rest <:+ after ∧ Obstacle L ([] ++ rest) fault := by
  rw [readChoice, hc, ok_bind] at h
  rcases bind_eq_error.mp h with h | ⟨⟨_, left, hlq⟩, hq, h⟩
  · exact ⟨_, _, List.suffix_refl _,
      expect_obstacle .question h (.refl _) (Set.mem_singleton _) valid_choice⟩
  have hsq := expect_suffix hq
  rcases bind_eq_error.mp h with h | ⟨⟨yes, afterYes, hly⟩, hy, h⟩
  · exact ⟨_, _, hsq, readValue_obstacle h (.refl _)⟩
  rcases bind_eq_error.mp h with h | ⟨_, _, h⟩
  · exact ⟨_, _, (readValue_suffix hy).trans hsq, readAlternative_obstacle h (.refl _)⟩
  · simp at h

theorem readChoice_lt_reach {t : Token} {ts : List Token} (hc : Ascending (t :: ts))
    (ho : OpensCondition t.lexeme) {fault : ParseError}
    (h : readChoice (t :: ts) = .error fault) : t.column < fault.reach := by
  cases hcond : readCondition (t :: ts) with
  | error e =>
    rw [readChoice, hcond] at h
    obtain rfl := Except.error.inj h
    exact readCondition_lt_reach hc ho hcond
  | ok result =>
    obtain ⟨condition, after, hl⟩ := result
    obtain ⟨L, rest, hs, hobstacle⟩ := exists_obstacle_behind hcond h
    exact hobstacle.lt_reach (hs.trans (suffix_tail (readCondition_suffix hcond) hl)) hc

theorem readCondition_of_other {t : Token} {ts : List Token} (h : ¬OpensCondition t.lexeme) :
    readCondition (t :: ts) = .error (.unexpected (.token .word) t) := by
  obtain ⟨x, column⟩ := t
  cases x with
  | word name => exact absurd (.inl ⟨name, rfl⟩) h
  | not => exact absurd (.inr (.inl rfl)) h
  | check k => exact absurd (.inr (.inr ⟨k, rfl⟩)) h
  | _ => simp [readCondition, readAtom]

theorem readChoice_of_other {t : Token} {ts : List Token} (h : ¬OpensCondition t.lexeme) :
    readChoice (t :: ts) = .error (.unexpected (.token .word) t) := by
  rw [readChoice, readCondition_of_other h]
  rfl

theorem valueForms_of_opens {t : Token} {ts : List Token} (ho : OpensCondition t.lexeme) :
    valueForms (t :: ts) = [.error (.unexpected (.token .call) t),
      .error (.unexpected (.token .literal) t), .error (.unexpected (.token .quoted) t),
      readChoice (t :: ts), .error (.unexpected (.token .dollar) t)] := by
  obtain ⟨x, column⟩ := t
  obtain ⟨name, rfl⟩ | rfl | ⟨k, rfl⟩ := ho <;> rfl

/-- To try the forms of a value in order comes to reading the one that its first token asks for. -/
theorem readValue_eq_firstOf {tokens : List Token} (hc : Ascending tokens) :
    readValue tokens = firstOf none (valueForms tokens) := by
  cases tokens with
  | nil => simp [readValue, valueForms, tryOperation, tryLiteral, tryQuoted, tryAccess, readChoice,
      readCondition, readAtom, firstOf, isFatal, furthest]
  | cons t ts =>
    by_cases ho : OpensCondition t.lexeme
    · rw [readValue_of_opens ho, valueForms_of_opens ho]
      simp only [firstOf_unexpected, furthest_none, furthest_unexpected]
      refine (firstOf_decided (fun fault h => ?_) [.unexpected (.token .dollar) t] ?_).symm
      · exact furthest_of_lt (readChoice_lt_reach hc ho h)
      · exact List.forall_mem_singleton.mpr
          ⟨rfl, fun fault h => (readChoice_lt_reach hc ho h).le⟩
    · have hchoice : readChoice (t :: ts) = _ := readChoice_of_other ho
      obtain ⟨x, column⟩ := t
      cases x with
      | operation op =>
        have hvalue : readValue (⟨.operation op, column⟩ :: ts) =
            tryOperation (⟨.operation op, column⟩ :: ts) := by
          rw [readValue, tryOperation]
        have hle : ∀ fault, tryOperation (⟨.operation op, column⟩ :: ts) = .error fault →
            column ≤ fault.reach := by
          intro fault h
          exact (readValue_obstacle (hvalue.trans h) (.refl _)).le_reach_of_suffix
            (List.suffix_refl _) hc
        rw [hvalue, valueForms, hchoice]
        refine (firstOf_decided (fun _ _ => rfl) [.unexpected (.token .literal) _,
          .unexpected (.token .quoted) _, .unexpected (.token .word) _,
          .unexpected (.token .dollar) _] ?_).symm
        simp only [List.forall_mem_cons]
        exact ⟨⟨rfl, hle⟩, ⟨rfl, hle⟩, ⟨rfl, hle⟩, ⟨rfl, hle⟩, List.forall_mem_nil _⟩
      | dollar =>
        have hvalue : readValue (⟨.dollar, column⟩ :: ts) =
            tryAccess (⟨.dollar, column⟩ :: ts) := by
          rw [readValue, tryAccess]
        rw [hvalue, valueForms, hchoice]
        simp only [tryOperation, tryLiteral, tryQuoted, firstOf_unexpected, furthest_none,
          furthest_unexpected]
        refine (firstOf_decided (fun fault h => ?_) [] (List.forall_mem_nil _)).symm
        rcases bind_eq_error.mp h with h | ⟨_, _, h⟩
        · exact furthest_of_lt
            ((readAccessor_obstacle h (.refl _)).lt_reach (List.suffix_refl _) hc)
        · simp at h
      | word name => exact absurd (.inl ⟨name, rfl⟩) ho
      | not => exact absurd (.inr (.inl rfl)) ho
      | check k => exact absurd (.inr (.inr ⟨k, rfl⟩)) ho
      | _ => simp [readValue, valueForms, tryOperation, tryLiteral, tryQuoted, tryAccess, hchoice]

def withChain (chain : Option (Connective × Expression)) : Expression → Expression
  | .existence negated name _ => .existence negated name chain
  | .check negated k arguments _ => .check negated k arguments chain
  | e => e

def tryName (negated : Bool) : (tokens : List Token) → Reading Expression tokens
  | ⟨.word name, _⟩ :: rest => .ok (.existence negated name none, ⟨rest, Nat.lt_succ_self _⟩)
  | t :: _ => .error (.unexpected (.token .word) t)
  | [] => .error .endOfInput

def tryCheck (negated : Bool) : (tokens : List Token) → Reading Expression tokens
  | ⟨.check k, _⟩ :: rest => do
    let r ← readArguments rest
    checkArity k.name k.arity r.1
    return (.check negated k r.1 none, ⟨r.2, Nat.lt_succ_of_lt r.2.2⟩)
  | t :: _ => .error (.unexpected (.token .call) t)
  | [] => .error .endOfInput

def conditionForms (negated : Bool) (tokens : List Token) : List (Reading Expression tokens) :=
  [tryName negated tokens, tryCheck negated tokens]

/-- To try a name and then a check, and to read a chain behind it, comes to reading the one that
stands there. -/
theorem readAtom_eq_firstOf (negated : Bool) {tokens : List Token} (hc : Ascending tokens) :
    readAtom negated tokens = (do
      let r ← firstOf none (conditionForms negated tokens)
      let c ← readChain r.2
      return (r.1.withChain c.1, ⟨c.2, Nat.lt_of_le_of_lt c.2.2 r.2.2⟩)) := by
  cases tokens with
  | nil => simp [readAtom, conditionForms, tryName, tryCheck, firstOf, isFatal, furthest]
  | cons t ts =>
    obtain ⟨x, column⟩ := t
    cases x with
    | word name =>
      rw [readAtom, conditionForms, tryName]
      rfl
    | check k =>
      have hdecided : firstOf none (conditionForms negated (⟨.check k, column⟩ :: ts)) =
          tryCheck negated (⟨.check k, column⟩ :: ts) := by
        refine firstOf_decided (fun fault h => ?_) [] (List.forall_mem_nil _)
        rcases bind_eq_error.mp h with h | ⟨_, _, h⟩
        · exact furthest_of_lt
            ((readArguments_obstacle h (.refl _)).lt_reach (List.suffix_refl _) hc)
        rcases bind_eq_error.mp h with h | ⟨_, _, h⟩
        · obtain ⟨-, rfl⟩ := checkArity_eq_error.mp h
          exact furthest_of_lt (WithTop.coe_lt_top _)
        · simp at h
      rw [hdecided, readAtom, tryCheck]
      simp only [bind_assoc]
      rfl
    | _ => simp [readAtom, conditionForms, tryName, tryCheck]

theorem ascending_of_suffix {ts rest : List Token} (hc : Ascending ts) (hs : rest <:+ ts) :
    Ascending rest := hc.sublist hs.sublist

theorem le_reach_of_condition {ts : List Token} (hc : Ascending ts) {condition : Expression}
    {t : Token} {rest : List Token} {hl : (t :: rest).length < ts.length}
    (hcond : readCondition ts = .ok (condition, ⟨t :: rest, hl⟩)) {fault : ParseError}
    (h : whole (readChoice ts) = .error fault) : t.column ≤ fault.reach := by
  have hrest : Ascending (t :: rest) := ascending_of_suffix hc (readCondition_suffix hcond)
  unfold whole at h
  split at h
  · rename_i hr
    obtain rfl := Except.error.inj h
    obtain ⟨L, left, hs, hobstacle⟩ := exists_obstacle_behind hcond hr
    exact hobstacle.le_reach_of_suffix hs hrest
  · simp at h
  · rename_i e found more hlm hr
    obtain rfl := Except.error.inj h
    rw [readChoice, hcond, ok_bind] at hr
    obtain ⟨⟨_, left, hlq⟩, hq, hr⟩ := bind_eq_ok.mp hr
    obtain ⟨⟨yes, afterYes, hly⟩, hy, hr⟩ := bind_eq_ok.mp hr
    obtain ⟨⟨no, afterNo, hln⟩, hn, hr⟩ := bind_eq_ok.mp hr
    obtain ⟨-, hleft⟩ := Prod.mk.inj (Except.ok.inj hr)
    obtain rfl : afterNo = found :: more := Subtype.mk.inj hleft
    have hsuffix := (readAlternative_suffix hn).trans
      ((readValue_suffix hy).trans (expect_suffix hq))
    simpa [reach] using hrest.le_column found (hsuffix.subset (List.mem_cons_self ..))

/-- When neither a value nor a condition can be read, the error of the value is that of the
condition, or it gets at least as far. -/
theorem value_error_furthest {ts : List Token} (hc : Ascending ts) {fault other : ParseError}
    (hv : whole (readValue ts) = .error fault) (ho : whole (readCondition ts) = .error other) :
    fault = other ∨ other.isFatal = false ∧ other.reach ≤ fault.reach := by
  cases ts with
  | nil =>
    simp only [readValue, readCondition, readAtom, whole] at hv ho
    exact .inl ((Except.error.inj hv).symm.trans (Except.error.inj ho))
  | cons t ts =>
    by_cases hopens : OpensCondition t.lexeme
    · rw [readValue_of_opens hopens] at hv
      cases hcond : readCondition (t :: ts) with
      | error e =>
        rw [hcond] at ho
        rw [readChoice, hcond] at hv
        exact .inl ((Except.error.inj hv).symm.trans (Except.error.inj ho))
      | ok result =>
        obtain ⟨condition, rest, hl⟩ := result
        rw [hcond] at ho
        cases rest with
        | nil => simp [whole] at ho
        | cons u us =>
          obtain rfl := Except.error.inj ho
          exact .inr ⟨rfl, le_reach_of_condition hc hcond hv⟩
    · rw [readCondition_of_other hopens] at ho
      obtain rfl := Except.error.inj ho
      exact .inr ⟨rfl, (whole_readValue_obstacle hv).le_reach hc.le_column⟩

/-- To try a value and then a condition, and to keep the error that got further, comes to the same
as to report the error of the value. -/
theorem parse_eq_firstOf (t : Text) :
    parse t = (do
      let ts ← tokens t
      firstOf none [whole (readValue ts), whole (readCondition ts)]) := by
  cases ht : tokens t with
  | error e =>
    rw [parse, ht]
    rfl
  | ok ts =>
    have hc : Ascending ts := (ascending_of_scan (mapError_eq_ok.mp ht)).1
    rw [parse, ht, ok_bind, ok_bind]
    cases hv : whole (readValue ts) with
    | ok e => rfl
    | error fault =>
      cases ho : whole (readCondition ts) with
      | ok e =>
        rw [readValue_of_whole_condition ho] at hv
        obtain rfl := Except.error.inj hv
        simp [firstOf, isFatal]
      | error other =>
        rcases value_error_furthest hc hv ho with rfl | ⟨hfatal, hle⟩
        · simp [firstOf, furthest_of_le le_rfl]
        · refine (firstOf_decided (fun _ _ => rfl) [other] ?_).symm
          rw [List.forall_mem_singleton]
          refine ⟨hfatal, fun e he => ?_⟩
          obtain rfl := Except.error.inj he
          exact hle

end Expression
end Countermand

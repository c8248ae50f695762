import Countermand.Proofs.Pattern.Binding

/-! How words are handed out to positionals: all of them, in order, each positional taking as many
as it may. This succeeds whenever the number of words is within the limits of all positionals
together, and the numbers on the way are those of a machine. -/
namespace Countermand
open Results Matching

namespace Slot
variable {s : Slot} {k n : Nat}

def Admits (s : Slot) (n : Nat) : Prop := s.least ≤ n ∧ ∀ most, s.most? = some most → n ≤ most

def bounds (s : Slot) : Nat × Option Nat := (s.least, s.most?)

def handed (s : Slot) (available : Nat) : Nat :=
  match s.most? with
  | some most => min most available
  | none => available

theorem le_handed_iff : k ≤ s.handed n ↔ k ≤ n ∧ ∀ most, s.most? = some most → k ≤ most := by
  unfold handed
  cases s.most? <;> simp [and_comm]

theorem handed_le (s : Slot) (n : Nat) : s.handed n ≤ n := (le_handed_iff.mp le_rfl).1

theorem admits_least (s : Slot) : s.Admits s.least := by
  refine ⟨le_rfl, fun most hmost => ?_⟩
  cases hd : s.argument.delimiter <;> cases hq : s.argument.quantifier <;>
    simp only [Slot.least, Slot.most?, hd, hq, Quantifier.least, Quantifier.most?,
      Option.some.injEq, reduceCtorEq] at hmost ⊢ <;> omega

end Slot

namespace Matching

def mostTotal? : List Slot → Option Nat
  | [] => some 0
  | s :: slots => do return (← s.most?) + (← mostTotal? slots)

/-- A number of words within the limits of all positionals together. -/
def Suffices (slots : List Slot) (n : Nat) : Prop :=
  leastTotal slots ≤ n ∧ ∀ most, mostTotal? slots = some most → n ≤ most

/-- Numbers of words, each within the limits of its positional, that come to a total. -/
structure IsCut (slots : List Slot) (total : Nat) (cut : List Nat) : Prop where
  admitted : List.Forall₂ Slot.Admits slots cut
  sum_eq : cut.sum = total

section
variable {s : Slot} {slots : List Slot} {words : List Text} {slices : List (Slot × List Text)}
  {cut : List Nat} {n : Nat}

theorem mostTotal?_cons_eq_some :
    mostTotal? (s :: slots) = some n ↔
      ∃ most more, s.most? = some most ∧ mostTotal? slots = some more ∧ most + more = n := by
  simp [mostTotal?, Option.bind_eq_some_iff]

theorem leastTotal_eq_sum (slots : List Slot) : leastTotal slots = (slots.map Slot.least).sum := by
  induction slots with
  | nil => rfl
  | cons s slots ih => rw [leastTotal, ih, List.map_cons, List.sum_cons]

theorem IsCut.suffices (h : IsCut slots n cut) : Suffices slots n := by
  obtain ⟨hadmitted, rfl⟩ := h
  induction hadmitted with
  | nil => exact ⟨le_rfl, by simp [mostTotal?]⟩
  | @cons s n slots cut hn _ ih =>
    obtain ⟨hleast, hmost⟩ := ih
    rw [List.sum_cons]
    refine ⟨Nat.add_le_add hn.1 hleast, fun total htotal => ?_⟩
    obtain ⟨most, more, hs, hslots, rfl⟩ := mostTotal?_cons_eq_some.mp htotal
    exact Nat.add_le_add (hn.2 most hs) (hmost more hslots)

theorem leastTotal_le_mostTotal (h : mostTotal? slots = some n) : leastTotal slots ≤ n := by
  have hcut : IsCut slots (leastTotal slots) (slots.map Slot.least) :=
    ⟨List.forall₂_map_right_iff.mpr (List.forall₂_same.mpr fun s _ => s.admits_least),
      (leastTotal_eq_sum slots).symm⟩
  exact hcut.suffices.2 n h

theorem allocate_nil (words : List Text) :
    allocate [] words = if words = [] then .ok [] else .error (.leftOver words) := by
  cases words <;> rfl

theorem allocate_cons (s : Slot) (slots : List Slot) (words : List Text) :
    allocate (s :: slots) words =
      let taken := s.handed (words.length - leastTotal slots)
      if taken < s.least then .error (.fewPositionals s.least s.variableName)
      else do
        let rest ← allocate slots (words.drop taken)
        return (s, words.take taken) :: rest := by
  rw [allocate]
  rfl

theorem Suffices.drop (h : Suffices (s :: slots) words.length) :
    s.least ≤ s.handed (words.length - leastTotal slots) ∧
      Suffices slots (words.drop (s.handed (words.length - leastTotal slots))).length := by
  obtain ⟨hleast, hmost⟩ := h
  rw [leastTotal] at hleast
  have hle := s.handed_le (words.length - leastTotal slots)
  refine ⟨Slot.le_handed_iff.mpr ⟨by omega, s.admits_least.2⟩, ?_, fun more hmore => ?_⟩
  · rw [List.length_drop]
    omega
  · have htotal := leastTotal_le_mostTotal hmore
    rw [List.length_drop]
    unfold Slot.handed
    split
    · rename_i most hs
      have := hmost (most + more) (mostTotal?_cons_eq_some.mpr ⟨most, more, hs, hmore, rfl⟩)
      omega
    · omega

theorem exists_of_suffices (h : Suffices slots words.length) :
    ∃ slices, allocate slots words = .ok slices := by
  induction slots generalizing words with
  | nil =>
    have hwords : words = [] := List.length_eq_zero_iff.mp (Nat.le_zero.mp (h.2 0 rfl))
    exact ⟨[], by rw [hwords, allocate]⟩
  | cons s slots ih =>
    obtain ⟨hleast, hslots⟩ := h.drop
    obtain ⟨rest, hrest⟩ := ih hslots
    exact ⟨_, by rw [allocate_cons]; simp only [if_neg hleast.not_gt, hrest]; rfl⟩

/-- All words are handed out, and they keep their order. -/
theorem flatMap_of_allocate (h : allocate slots words = .ok slices) :
    slices.flatMap Prod.snd = words := by
  induction slots generalizing words slices with
  | nil =>
    rw [allocate_nil] at h
    split_ifs at h with hwords
    obtain rfl := Except.ok.inj h
    exact hwords.symm
  | cons s slots ih =>
    obtain ⟨taken, rest, -, -, -, hrest, rfl⟩ := exists_taken_of_allocate h
    rw [List.flatMap_cons, ih hrest, List.take_append_drop]

theorem isCut_of_allocate (h : allocate slots words = .ok slices) :
    IsCut slots words.length (slices.map (·.2.length)) := by
  obtain ⟨hfirst, hbounds⟩ := bounded_of_allocate h
  constructor
  · rw [← hfirst, List.forall₂_map_left_iff, List.forall₂_map_right_iff, List.forall₂_same]
    exact hbounds
  · rw [← flatMap_of_allocate h, List.length_flatMap]

/-- No other cut gives more to the first positional for which it differs. -/
theorem greatest_of_allocate (h : allocate slots words = .ok slices)
    (hcut : IsCut slots words.length cut) :
    cut = slices.map (·.2.length) ∨ List.Lex (· < ·) cut (slices.map (·.2.length)) := by
  obtain ⟨hadmitted, hsum⟩ := hcut
  induction hadmitted generalizing words slices with
  | nil =>
    rw [allocate_nil] at h
    split_ifs at h
    obtain rfl := Except.ok.inj h
    exact .inl rfl
  | @cons s n slots cut hn hcut ih =>
    rw [allocate_cons] at h
    dsimp only at h
    split_ifs at h
    obtain ⟨rest, hrest, he⟩ := bind_eq_ok.mp h
    obtain rfl := Except.ok.inj he
    have hleast := (IsCut.mk hcut rfl).suffices.1
    rw [List.sum_cons] at hsum
    have hle : n ≤ s.handed (words.length - leastTotal slots) :=
      Slot.le_handed_iff.mpr ⟨by omega, hn.2⟩
    have hlength := List.length_take_of_le
      ((s.handed_le (words.length - leastTotal slots)).trans (Nat.sub_le _ _))
    rw [List.map_cons, hlength]
    rcases hle.lt_or_eq with hlt | rfl
    · exact .inr (.rel hlt)
    · have hrest := ih hrest (by rw [List.length_drop]; omega)
      exact hrest.imp (congrArg _) .cons

end

def add64? (m n : Nat) : Option Nat := if m + n < 2 ^ 64 then some (m + n) else none

def sum64? (ns : List Nat) : Option Nat := ns.foldlM add64? 0

def range? {α : Type} (xs : List α) (first last : Nat) : Option (List α) :=
  if first ≤ last ∧ last ≤ xs.length then some ((xs.take last).drop first) else none

def indexedValue? (s : Slot) (words : List Text) : Option Value :=
  match s.argument.delimiter, s.argument.quantifier with
  | some d, _ => some (.list (words.flatMap (Text.items d)))
  | none, .exactly 1 => words[0]?.map .text
  | none, .flag => some (.flag false)
  | none, _ => some (.list words)

/-- The loop over the positionals with its indices, which has no result when a sum overflows or an
index is out of range. -/
def handOutFrom (bounds : List (Nat × Option Nat)) (words : List Text) :
    Nat → Nat → Bindings → List Slot → Option (Except Mismatch Bindings)
  | _, cursor, b, [] =>
    if cursor < words.length then do
      let left ← range? words cursor words.length
      return .error (.leftOver left)
    else some (.ok b)
  | index, cursor, b, s :: slots => do
    let (least, most?) ← bounds[index]?
    let behind ← add64? index 1
    let later ← range? bounds behind bounds.length
    let reserved ← sum64? (later.map Prod.fst)
    let kept ← add64? cursor reserved
    let available := words.length - kept
    let taken := most?.elim available (min · available)
    if taken < least then some (.error (.fewPositionals least s.variableName))
    else do
      let next ← add64? cursor taken
      let given ← range? words cursor next
      let value ← indexedValue? s given
      handOutFrom bounds words behind next (b.put s.variableName value) slots

def handOut (slots : List Slot) (words : List Text) (b : Bindings) :
    Option (Except Mismatch Bindings) :=
  handOutFrom (slots.map Slot.bounds) words 0 0 b slots

/-- A list that a machine can hold. -/
def InMemory {α : Type} (xs : List α) : Prop := xs.length < 2 ^ 64

section
variable {s : Slot} {slots : List Slot} {words : List Text}

theorem add64?_eq {m n : Nat} (h : m + n < 2 ^ 64) : add64? m n = some (m + n) := if_pos h

theorem sum64?_eq {ns : List Nat} (h : ns.sum < 2 ^ 64) : sum64? ns = some ns.sum := by
  have hfold (start : Nat) (h : start + ns.sum < 2 ^ 64) :
      ns.foldlM add64? start = some (start + ns.sum) := by
    induction ns generalizing start with
    | nil => rfl
    | cons n ns ih =>
      rw [List.sum_cons] at h ⊢
      rw [List.foldlM_cons, add64?_eq (by omega)]
      show ns.foldlM add64? (start + n) = _
      rw [ih (by omega) _ (by omega), Nat.add_assoc]
  rw [sum64?, hfold 0 (by omega), Nat.zero_add]

theorem range?_eq {α : Type} {xs : List α} {first last : Nat} (hle : first ≤ last)
    (hlast : last ≤ xs.length) :
    range? xs first last = some ((xs.drop first).take (last - first)) := by
  rw [range?, if_pos ⟨hle, hlast⟩, List.take_drop, Nat.add_sub_cancel' hle]

theorem indexedValue?_eq (h : s.Admits words.length) :
    indexedValue? s words = some (positionalValue s words) := by
  unfold indexedValue? positionalValue
  cases hd : s.argument.delimiter with
  | some d => rfl
  | none =>
    by_cases hq : s.argument.quantifier = .exactly 1
    · have hleast : 1 ≤ words.length := by simpa [Slot.least, hd, hq, Quantifier.least] using h.1
      obtain ⟨word, others, rfl⟩ := List.exists_cons_of_length_pos hleast
      simp [hq]
    · cases words <;> cases hq' : s.argument.quantifier <;> simp_all

/-- The bounds behind those of a positional are the bounds of the later ones. -/
theorem range?_bounds (done : List Slot) (s : Slot) (slots : List Slot) :
    range? ((done ++ s :: slots).map Slot.bounds) (done.length + 1)
      ((done ++ s :: slots).map Slot.bounds).length = some (slots.map Slot.bounds) := by
  have hdrop : (done ++ s :: slots).drop (done.length + 1) = slots := by
    rw [List.append_cons]
    exact List.drop_left' (by simp)
  rw [range?_eq (by simp) le_rfl, ← List.length_drop, List.take_length, ← List.map_drop, hdrop]

theorem sum64?_bounds (h : leastTotal slots < 2 ^ 64) :
    sum64? ((slots.map Slot.bounds).map Prod.fst) = some (leastTotal slots) := by
  have hsum : ((slots.map Slot.bounds).map Prod.fst).sum = leastTotal slots := by
    rw [List.map_map, leastTotal_eq_sum]
    rfl
  rw [sum64?_eq (hsum ▸ h), hsum]

section
variable (done : List Slot) {cursor : Nat} (hcursor : cursor ≤ words.length)
  (hwords : InMemory words)
include hcursor hwords

theorem handOutFrom_cons (hslots : InMemory (done ++ s :: slots))
    (htotal : cursor + leastTotal (s :: slots) < 2 ^ 64) (b : Bindings) :
    handOutFrom ((done ++ s :: slots).map Slot.bounds) words done.length cursor b (s :: slots) =
      let taken := s.handed (words.length - (cursor + leastTotal slots))
      if taken < s.least then some (.error (.fewPositionals s.least s.variableName))
      else handOutFrom ((done ++ s :: slots).map Slot.bounds) words (done.length + 1)
        (cursor + taken)
        (b.put s.variableName (positionalValue s ((words.drop cursor).take taken))) slots := by
  rw [leastTotal] at htotal
  have hbounds : ((done ++ s :: slots).map Slot.bounds)[done.length]? = some s.bounds := by simp
  have hbehind : done.length + 1 < 2 ^ 64 := by
    rw [InMemory, List.length_append, List.length_cons] at hslots
    omega
  have htaken (n : Nat) : s.bounds.2.elim n (min · n) = s.handed n := by
    unfold Slot.handed Slot.bounds
    cases s.most? <;> rfl
  rw [handOutFrom, hbounds]
  simp only [Option.bind_eq_bind, Option.bind_some, add64?_eq hbehind, range?_bounds,
    sum64?_bounds (show leastTotal slots < 2 ^ 64 by omega),
    add64?_eq (show cursor + leastTotal slots < 2 ^ 64 by omega), htaken]
  obtain ⟨hle, hmost⟩ := Slot.le_handed_iff.mp
    (le_refl (s.handed (words.length - (cursor + leastTotal slots))))
  generalize s.handed (words.length - (cursor + leastTotal slots)) = taken at hle hmost ⊢
  rw [show s.bounds.1 = s.least from rfl]
  split_ifs with hfew
  · rfl
  have hgiven : ((words.drop cursor).take taken).length = taken := by
    rw [List.length_take, List.length_drop]
    omega
  unfold InMemory at hwords
  rw [add64?_eq (by omega), Option.bind_some, range?_eq (by omega) (by omega), Option.bind_some,
    Nat.add_sub_cancel_left, indexedValue?_eq ⟨by omega, by rwa [hgiven]⟩, Option.bind_some]

/-- What is handed out in the loop is what is allocated. -/
theorem handOutFrom_eq (hslots : InMemory (done ++ slots))
    (htotal : cursor + leastTotal slots < 2 ^ 64) (b : Bindings) :
    handOutFrom ((done ++ slots).map Slot.bounds) words done.length cursor b slots =
      some ((allocate slots (words.drop cursor)).map fun slices =>
        Assignment.applyAll b (slices.map fun slice =>
          .put slice.1.variableName (positionalValue slice.1 slice.2))) := by
  induction slots generalizing done cursor b with
  | nil =>
    rw [handOutFrom, allocate_nil]
    by_cases hleft : cursor < words.length
    · have hne : words.drop cursor ≠ [] := by simpa using hleft
      rw [if_pos hleft, if_neg hne, range?_eq hcursor le_rfl, ← List.length_drop, List.take_length]
      rfl
    · rw [if_neg hleft, if_pos (List.drop_eq_nil_of_le (not_lt.mp hleft))]
      rfl
  | cons s slots ih =>
    have hle := s.handed_le (words.length - (cursor + leastTotal slots))
    rw [handOutFrom_cons done hcursor hwords hslots htotal, allocate_cons, List.length_drop,
      Nat.sub_sub]
    generalize s.handed (words.length - (cursor + leastTotal slots)) = taken at hle ⊢
    dsimp only
    split_ifs with hfew
    · rfl
    rw [leastTotal] at htotal
    -- Nothing is available when the words are too few, so the cursor and the words kept for the
    -- later positionals together never pass both the end of the words and the total.
    have hfit : cursor + taken + leastTotal slots < 2 ^ 64 := by
      unfold InMemory at hwords
      omega
    have hslots' : InMemory (done ++ [s] ++ slots) := by simpa using hslots
    have hrest := ih (done ++ [s]) (by omega) hslots' hfit
      (b.put s.variableName (positionalValue s ((words.drop cursor).take taken)))
    rw [List.length_append, List.length_singleton, List.append_assoc, List.singleton_append]
      at hrest
    rw [hrest, List.drop_drop]
    cases allocate slots (words.drop (cursor + taken)) <;> rfl

end

end

/-- Handing out words never leaves the numbers of the machine. It succeeds exactly if the number of
words is within the limits of all positionals; then each positional in turn gets the next words, as
many as any cut within the limits can give it, and its value is made of these. -/
theorem handOut_greatest {slots : List Slot} {words : List Text} (hslots : InMemory slots)
    (hwords : InMemory words) (htotal : leastTotal slots < 2 ^ 64) (b : Bindings) :
    handOut slots words b = some ((allocate slots words).map fun slices =>
      Assignment.applyAll b (slices.map fun slice =>
        .put slice.1.variableName (positionalValue slice.1 slice.2))) ∧
    ((∃ slices, allocate slots words = .ok slices) ↔ Suffices slots words.length) ∧
    ∀ slices, allocate slots words = .ok slices →
      slices.map Prod.fst = slots ∧ slices.flatMap Prod.snd = words ∧
      IsCut slots words.length (slices.map (·.2.length)) ∧
      ∀ cut, IsCut slots words.length cut →
        cut = slices.map (·.2.length) ∨ List.Lex (· < ·) cut (slices.map (·.2.length)) := by
  refine ⟨?_, ⟨?_, exists_of_suffices⟩, fun slices h => ?_⟩
  · exact handOutFrom_eq [] (Nat.zero_le _) hwords hslots (by omega) b
  · rintro ⟨slices, h⟩
    exact (isCut_of_allocate h).suffices
  · exact ⟨(bounded_of_allocate h).1, flatMap_of_allocate h, isCut_of_allocate h,
      fun cut => greatest_of_allocate h⟩

def mover : List Slot := Slot.assign 0 0 [
  ⟨some "SRC".toList, .atLeastOne, [], true, true, none⟩,
  ⟨some "MORE".toList, .any, [], true, true, none⟩,
  ⟨some "DST".toList, .exactly 1, [], true, true, none⟩]

/-- The last word is kept for the single one, the first list gets all others. -/
theorem handOut_greatest_mover :
    InMemory mover ∧ leastTotal mover < 2 ^ 64 ∧
      handOut mover (["a", "b", "c", "d"].map String.toList) [] =
        some (.ok [("SRC".toList, .list (["a", "b", "c"].map String.toList)),
          ("MORE".toList, .list []), ("DST".toList, .text "d".toList)]) ∧
      ∀ cut, IsCut mover 4 cut → cut = [3, 0, 1] ∨ List.Lex (· < ·) cut [3, 0, 1] := by
  have hslots : InMemory mover := by
    unfold InMemory
    decide
  have hwords : InMemory (["a", "b", "c", "d"].map String.toList) := by
    unfold InMemory
    decide
  have htotal : leastTotal mover < 2 ^ 64 := by decide
  have hallocate : allocate mover (["a", "b", "c", "d"].map String.toList) = .ok [
      (mover[0], ["a", "b", "c"].map String.toList), (mover[1], []),
      (mover[2], ["d".toList])] := by
    cbv
  obtain ⟨hloop, -, hcut⟩ := handOut_greatest hslots hwords htotal []
  refine ⟨hslots, htotal, ?_, (hcut _ hallocate).2.2.2⟩
  rw [hloop, hallocate]
  cbv

end Matching
end Countermand

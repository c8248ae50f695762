import Countermand.Proofs.Pattern.Naming

/-! The words that an argument takes. A delimited list stands in one word: attached to an option,
behind it, or in the place of a positional. Only a positional that counts its words takes as many
of them, and then its items are those of all. -/
namespace Countermand
open Results Matching

namespace Matching

theorem items_of_occurrence {s : Slot} {attached : Option Text} {following : List Text}
    {a : Assignment} {used : Nat} {d : Text} (hflag : s.isFlag = false)
    (hd : s.argument.delimiter = some d) (h : occurrence s attached following = .ok (a, used)) :
    a.value = .list ((attached.toList ++ following.take used).flatMap (Text.items d)) ∧
      (attached.toList ++ following.take used).length ≤ 1 := by
  by_cases hq : s.argument.quantifier = .optional
  · simp only [occurrence, hflag, hq, hd, Bool.false_eq_true, ↓reduceIte] at h
    cases attached with
    | none => cases h; simp [Assignment.value]
    | some value => cases h; simp [Assignment.value]
  · cases attached with
    | some value =>
      have hone : occurrence s (some value) following =
          .ok (.extend s.variableName (Text.items d value), 0) := by
        cases hc : s.argument.quantifier <;> simp_all [occurrence]
      rw [hone] at h
      cases h
      simp [Assignment.value]
    | none =>
      cases following with
      | nil =>
        have hnone : occurrence s none [] = .error (.noValue s.variableName) := by
          cases hc : s.argument.quantifier <;> simp_all [occurrence]
        simp [hnone] at h
      | cons value following =>
        rw [occurrence_delimited hflag hd hq] at h
        cases h
        simp [Assignment.value]

theorem length_of_allocate {s : Slot} {slots : List Slot} {words given : List Text}
    {slices : List (Slot × List Text)} {d : Text} (hd : s.argument.delimiter = some d)
    (h : allocate slots words = .ok slices) (hs : (s, given) ∈ slices) :
    given.length ≤ 1 ∨ ∃ n, 2 ≤ n ∧ s.argument.quantifier = .exactly n ∧ given.length = n := by
  obtain ⟨hleast, hmost⟩ := (bounded_of_allocate h).2 _ hs
  dsimp only at hleast hmost
  cases hq : s.argument.quantifier with
  | exactly n =>
    have hn : given.length = n := by
      apply Nat.le_antisymm
      · exact hmost n (by simp [Slot.most?, hd, hq, Quantifier.most?])
      · simpa [Slot.least, hd, hq, Quantifier.least] using hleast
    by_cases htwo : 2 ≤ n
    · exact .inr ⟨n, htwo, rfl, hn⟩
    · left
      omega
  | flag =>
    have hnone : given.length ≤ 0 := hmost 0 (by simp [Slot.most?, hd, hq, Quantifier.most?])
    left
    omega
  | _ => exact .inl (hmost 1 (by simp [Slot.most?, hd, hq, Quantifier.most?]))

theorem isFlag_of_ofLetters {spellings : List (Text × Slot)} {letters : Text} {r : Request}
    (h : Request.ofLetters spellings letters = .ok r) : ∀ s ∈ r.flags, s.isFlag = true := by
  induction letters generalizing r with
  | nil => cases h; simp
  | cons c cs ih =>
    rw [Request.ofLetters] at h
    obtain ⟨s, -, h⟩ := bind_eq_ok.mp h
    by_cases hflag : s.isFlag = true
    · rw [if_pos hflag] at h
      obtain ⟨rest, hrest, he⟩ := bind_eq_ok.mp h
      cases he
      exact List.forall_mem_cons.mpr ⟨hflag, ih hrest⟩
    · rw [if_neg hflag] at h
      cases h
      simp

theorem isFlag_of_ofWord {spellings : List (Text × Slot)} {word : Text} {r : Request}
    (h : Request.ofWord spellings word = .ok r) : ∀ s ∈ r.flags, s.isFlag = true := by
  rw [Request.ofWord] at h
  by_cases hlong : "--".toList.isPrefixOf word = true
  · rw [if_pos hlong] at h
    obtain ⟨s, -, he⟩ := bind_eq_ok.mp h
    cases he
    simp
  · rw [if_neg hlong] at h
    exact isFlag_of_ofLetters h

/-- An option word assigns the flags that it asks for, and then its last option. -/
theorem IsPhrased.exists_grant {spellings : List (Text × Slot)} {words ending : List Text}
    {found : List Phrase} (h : IsPhrased spellings words found ending) {word : Text}
    {values : List Text} {as : List Assignment} (hmem : .option word values as ∈ found) :
    ∃ r following used, Request.ofWord spellings word = .ok r ∧
      r.grant following = .ok (as, used) ∧ values = following.take used := by
  induction h with
  | ending _ => simp at hmem
  | @option word' following ending as' used found hlike _ hword _ ih =>
    rcases List.mem_cons.mp hmem with he | hmem
    · cases he
      rw [optionWord_eq_grant hlike] at hword
      obtain ⟨r, hr, hgrant⟩ := bind_eq_ok.mp hword
      exact ⟨r, following, used, hr, hgrant, rfl⟩
    · exact ih hmem
  | positional _ _ ih => exact ih (by simpa using hmem)

end Matching

namespace Pattern

def IsRead (p : Pattern) (words : List Text) (found : List Phrase) (ending : List Text) : Prop :=
  phrases p.spellings (words.drop (p.subcommands.length + 1)) = .ok (found, ending)

/-- Each occurrence of an argument in a command line, with the words that it takes, the value
attached to its name among them, and the assignment that it makes. -/
inductive Takes (p : Pattern) (words : List Text) : Slot → List Text → Assignment → Prop
  /-- A flag in front of the last option of its word takes nothing. -/
  | flag {found : List Phrase} {ending values : List Text} {word : Text} {as : List Assignment}
      {r : Request} {s : Slot} : p.IsRead words found ending → .option word values as ∈ found →
      Request.ofWord p.spellings word = .ok r → s ∈ r.flags →
      Takes p words s [] (.put s.variableName (.flag true))
  | option {found : List Phrase} {ending values : List Text} {word : Text} {as : List Assignment}
      {r : Request} {s : Slot} {attached : Option Text} {a : Assignment} :
      p.IsRead words found ending → .option word values as ∈ found →
      Request.ofWord p.spellings word = .ok r → r.last = some (s, attached) →
      as.getLast? = some a → Takes p words s (attached.toList ++ values) a
  | positional {found : List Phrase} {ending given : List Text} {s : Slot}
      {slices : List (Slot × List Text)} : p.IsRead words found ending →
      allocate p.positionalSlots (found.flatMap Phrase.left ++ ending.tail) = .ok slices →
      (s, given) ∈ slices →
      Takes p words s given (.put s.variableName (positionalValue s given))

section
variable {p : Pattern} {words : List Text} {b : Bindings}

theorem exists_takes_of_bind (hb : p.bind words = .ok b) :
    ∃ assignments, completeOptions (Assignment.applyAll [] assignments) p.optionSlots = .ok b ∧
      ∀ a ∈ assignments, ∃ s taken, p.Takes words s taken a := by
  obtain ⟨rest, assignments, slices, h⟩ := exists_steps_of_bind hb
  obtain ⟨left, hscan, hallocate⟩ := h.options
  rw [scanOptions_eq_phrases] at hscan
  obtain ⟨⟨found, ending⟩, hfound, he⟩ := bind_eq_ok.mp hscan
  obtain ⟨rfl, rfl⟩ := Prod.mk.inj (Except.ok.inj he)
  have hread : p.IsRead words found ending := by
    rw [IsRead, h.command, List.drop_succ_cons, List.drop_left, hfound]
  refine ⟨_, h.completed, fun a ha => ?_⟩
  rcases List.mem_append.mp ha with ha | ha
  · obtain ⟨phrase, hphrase, ha⟩ := List.mem_flatMap.mp ha
    cases phrase with
    | positional word => simp [Phrase.assignments] at ha
    | option word values as =>
      obtain ⟨r, following, used, hr, hgrant, rfl⟩ :=
        (isPhrased_of_phrases hfound).exists_grant hphrase
      replace ha : a ∈ as := ha
      cases hlast : r.last with
      | none =>
        simp only [Request.grant, hlast] at hgrant
        cases hgrant
        obtain ⟨s, hs, rfl⟩ := List.mem_map.mp ha
        exact ⟨s, [], .flag hread hphrase hr hs⟩
      | some last =>
        obtain ⟨s, attached⟩ := last
        simp only [Request.grant, hlast] at hgrant
        obtain ⟨⟨a', n⟩, hoccurs, he⟩ := bind_eq_ok.mp hgrant
        cases he
        rcases List.mem_append.mp ha with hflag | hone
        · obtain ⟨t, ht, rfl⟩ := List.mem_map.mp hflag
          exact ⟨t, [], .flag hread hphrase hr ht⟩
        · obtain rfl := List.mem_singleton.mp hone
          exact ⟨s, _, .option hread hphrase hr hlast (by simp)⟩
  · obtain ⟨⟨s, given⟩, hslice, rfl⟩ := List.mem_map.mp ha
    exact ⟨s, given, .positional hread hallocate hslice⟩

/-- Whatever takes values for a delimited list takes one word at most, unless it is a positional
that counts its words; the items are those of the words taken. -/
theorem Takes.items {s : Slot} {taken : List Text} {a : Assignment} {d : Text}
    (h : p.Takes words s taken a) (hflag : s.isFlag = false)
    (hd : s.argument.delimiter = some d) :
    a.value = .list (taken.flatMap (Text.items d)) ∧
      (taken.length ≤ 1 ∨ s.argument.positional = true ∧
        ∃ n, 2 ≤ n ∧ s.argument.quantifier = .exactly n ∧ taken.length = n) := by
  cases h with
  | flag _ _ hr hs => simp [isFlag_of_ofWord hr s hs] at hflag
  | option hread hphrase hr hlast ha =>
    obtain ⟨r, following, used, hr', hgrant, rfl⟩ :=
      (isPhrased_of_phrases hread).exists_grant hphrase
    cases hr.symm.trans hr'
    simp only [Request.grant, hlast] at hgrant
    obtain ⟨⟨a', n⟩, hoccurs, he⟩ := bind_eq_ok.mp hgrant
    cases he
    rw [List.getLast?_concat] at ha
    cases ha
    obtain ⟨hvalue, hlength⟩ := items_of_occurrence hflag hd hoccurs
    exact ⟨hvalue, .inl hlength⟩
  | positional hread hallocate hslice =>
    have hs : s ∈ p.positionalSlots :=
      (bounded_of_allocate hallocate).1 ▸ List.mem_map_of_mem hslice
    refine ⟨by simp [Assignment.value, positionalValue, hd], ?_⟩
    rcases length_of_allocate hd hallocate hslice with hone | hmany
    · exact .inl hone
    · exact .inr ⟨by simpa using (List.mem_filter.mp hs).2, hmany⟩

/-- All that a match binds is taken by arguments, and an argument with a delimiter takes its items
from one word at most, whether the word is attached, follows an option or is a positional. The
exception is a positional that counts its words: it takes that many. -/
theorem delimited_of_bind (hb : p.bind words = .ok b) :
    (∃ assignments, completeOptions (Assignment.applyAll [] assignments) p.optionSlots = .ok b ∧
      ∀ a ∈ assignments, ∃ s taken, p.Takes words s taken a) ∧
    ∀ s taken a d, p.Takes words s taken a → s.isFlag = false → s.argument.delimiter = some d →
      a.value = .list (taken.flatMap (Text.items d)) ∧
      (taken.length ≤ 1 ∨ s.argument.positional = true ∧
        ∃ n, 2 ≤ n ∧ s.argument.quantifier = .exactly n ∧ taken.length = n) :=
  ⟨exists_takes_of_bind hb, fun _ _ _ _ h => h.items⟩

end

/-- A tool with two delimited lists, one behind an option and one in two positional words. -/
def pairer : Pattern where
  command := "tool".toList
  subcommands := []
  arguments := [
    ⟨some "FIELDS".toList, .atLeastOne, ["-f".toList], false, false, some ",".toList⟩,
    ⟨some "ITEMS".toList, .exactly 2, [], true, true, some ",".toList⟩]
  groups := []

theorem read_pairer : read "tool [FIELDS...:-f :,:] <ITEMS{2}:,:>".toList = .ok pairer := by
  cbv

def pairing : List Text := ["tool", "-f", "x,y", "a,b", "c,d"].map String.toList

def paired : Bindings := [
  ("FIELDS".toList, .list (["x", "y"].map String.toList)),
  ("ITEMS".toList, .list (["a", "b", "c", "d"].map String.toList))]

theorem bind_pairing : pairer.bind pairing = .ok paired := by
  cbv

theorem isRead_pairing : pairer.IsRead pairing
    [.option "-f".toList ["x,y".toList] [.extend "FIELDS".toList (["x", "y"].map String.toList)],
      .positional "a,b".toList, .positional "c,d".toList] [] := by
  unfold IsRead
  cbv

theorem delimited_of_bind_pairer :
    pairer.bind pairing = .ok paired ∧
      ∃ a, pairer.Takes pairing pairer.optionSlots[0] ["x,y".toList] a ∧
        a.value = .list (["x,y".toList].flatMap (Text.items ",".toList)) := by
  have htakes : pairer.Takes pairing pairer.optionSlots[0] (none.toList ++ ["x,y".toList])
      (.extend "FIELDS".toList (["x", "y"].map String.toList)) :=
    .option isRead_pairing List.mem_cons_self rfl rfl rfl
  exact ⟨bind_pairing, _, htakes,
    ((delimited_of_bind bind_pairing).2 _ _ _ _ htakes (by decide) rfl).1⟩

/-- The positional takes two words, each a list of its own. -/
theorem delimited_in_two_words :
    read "tool [FIELDS...:-f :,:] <ITEMS{2}:,:>".toList = .ok pairer ∧
      pairer.bind pairing = .ok paired ∧
      ∃ s ∈ pairer.slots, s.isFlag = false ∧ s.argument.delimiter = some ",".toList ∧
        ∃ taken a, pairer.Takes pairing s taken a ∧ ¬taken.length ≤ 1 := by
  have hallocate : allocate pairer.positionalSlots ["a,b".toList, "c,d".toList] =
      .ok [(pairer.positionalSlots[0], ["a,b".toList, "c,d".toList])] := by
    cbv
  have htakes : pairer.Takes pairing pairer.positionalSlots[0] ["a,b".toList, "c,d".toList] _ :=
    .positional isRead_pairing hallocate List.mem_cons_self
  exact ⟨read_pairer, bind_pairing, _, by decide, by decide, rfl, _, _, htakes, by decide⟩

end Pattern
end Countermand

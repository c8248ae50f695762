import Countermand.Proofs.Pattern.Phrases

/-! Options may stand in another order. What a variable holds in the end depends only on the
assignments of this variable, in their order; so phrases may be moved past each other as long as
those that bind a common variable, and those for the positionals, keep their order. -/
namespace Countermand
open Results Matching

namespace Assignment
variable {b c : Bindings} {x : Text}

theorem get?_apply_congr (h : b.get? x = c.get? x) (a : Assignment) :
    (a.apply b).get? x = (a.apply c).get? x := by
  by_cases hx : x = a.name
  · subst hx
    cases a with
    | put x v =>
      show (b.put x v).get? x = (c.put x v).get? x
      simp [Bindings.get?_put]
    | extend x items =>
      have h : b.get? x = c.get? x := h
      show (b.extend x items).get? x = (c.extend x items).get? x
      rw [Bindings.extend, Bindings.extend, h]
      split <;> simp [Bindings.get?_put]
  · rw [get?_apply_of_ne hx, get?_apply_of_ne hx, h]

theorem get?_applyAll_congr (h : b.get? x = c.get? x) (as : List Assignment) :
    (applyAll b as).get? x = (applyAll c as).get? x := by
  induction as generalizing b c with
  | nil => exact h
  | cons a as ih => exact ih (get?_apply_congr h a)

/-- A variable is changed only by its own assignments. -/
theorem get?_applyAll_filter (b : Bindings) (as : List Assignment) (x : Text) :
    (applyAll b as).get? x = (applyAll b (as.filter (·.name = x))).get? x := by
  induction as generalizing b with
  | nil => rfl
  | cons a as ih =>
    by_cases hx : a.name = x
    · rw [List.filter_cons_of_pos (by simpa using hx)]
      exact ih (a.apply b)
    · rw [List.filter_cons_of_neg (by simpa using hx)]
      calc (applyAll b (a :: as)).get? x
        _ = (applyAll (a.apply b) (as.filter (·.name = x))).get? x := ih (a.apply b)
        _ = (applyAll b (as.filter (·.name = x))).get? x :=
            get?_applyAll_congr (get?_apply_of_ne (Ne.symm hx) b) _

end Assignment

namespace Matching

theorem completeOptions_congr {b c b' : Bindings} {slots : List Slot}
    (hbc : ∀ x, c.get? x = b.get? x) (h : completeOptions b slots = .ok b') :
    ∃ c', completeOptions c slots = .ok c' ∧ ∀ x, c'.get? x = b'.get? x := by
  induction slots generalizing b c with
  | nil =>
    obtain rfl := Except.ok.inj h
    exact ⟨c, rfl, hbc⟩
  | cons s slots ih =>
    rw [completeOptions] at h ⊢
    rw [hbc]
    split_ifs at h ⊢ with hbound hflag
    · exact ih hbc h
    · refine ih (fun x => ?_) h
      rw [Bindings.get?_put, Bindings.get?_put, hbc]
    · exact ih hbc h

theorem checkGroups_congr {b c : Bindings} {groups : List (Group × List Slot)}
    (hbc : ∀ x, c.get? x = b.get? x) (h : checkGroups b groups = .ok ()) :
    checkGroups c groups = .ok () := by
  rw [checkGroups_eq_ok_iff] at h ⊢
  intro entry hentry hrequired
  obtain ⟨s, hs, v, hv, hset⟩ := h entry hentry hrequired
  exact ⟨s, hs, v, (hbc _).trans hv, hset⟩

end Matching

namespace Pattern

/-- Two scans with the same words for the positionals, whose assignments have the same effect on
every variable, lead to the same bindings. -/
theorem bind_of_scanOptions {p : Pattern} {rest others left : List Text} {b : Bindings}
    {as more : List Assignment} (hb : p.bind (p.command :: (p.subcommands ++ rest)) = .ok b)
    (hrest : scanOptions p.spellings rest = .ok (as, left))
    (hothers : scanOptions p.spellings others = .ok (more, left))
    (heffect : ∀ x, (Assignment.applyAll [] more).get? x = (Assignment.applyAll [] as).get? x) :
    ∃ c, p.bind (p.command :: (p.subcommands ++ others)) = .ok c ∧ ∀ x, c.get? x = b.get? x := by
  rw [bind_arguments, hrest, ok_bind] at hb
  obtain ⟨slices, hslices, hb⟩ := bind_eq_ok.mp hb
  obtain ⟨b', hcompleted, hb⟩ := bind_eq_ok.mp hb
  obtain ⟨⟨⟩, hchecked, he⟩ := bind_eq_ok.mp hb
  obtain rfl := Except.ok.inj he
  have hassigned (positionals : List Assignment) (x : Text) :
      (Assignment.applyAll [] (more ++ positionals)).get? x =
        (Assignment.applyAll [] (as ++ positionals)).get? x := by
    rw [Assignment.applyAll, Assignment.applyAll, List.foldl_append, List.foldl_append]
    exact Assignment.get?_applyAll_congr (heffect x) _
  obtain ⟨c, hc, hsame⟩ := completeOptions_congr (hassigned _) hcompleted
  refine ⟨c, ?_, hsame⟩
  simp only [bind_arguments, hothers, hslices, hc, checkGroups_congr hsame hchecked, ok_bind,
    pure_eq_ok]

end Pattern

namespace Matching

namespace Phrase

def IsPositional : Phrase → Prop
  | positional _ => True
  | option _ _ _ => False

instance : DecidablePred IsPositional
  | positional _ => inferInstanceAs (Decidable True)
  | option _ _ _ => inferInstanceAs (Decidable False)

def Binds (x : Text) (u : Phrase) : Prop := ∃ a ∈ u.assignments, a.name = x

instance (x : Text) : DecidablePred (Binds x) :=
  fun u => inferInstanceAs (Decidable (∃ a ∈ u.assignments, a.name = x))

/-- A phrase that is read again from its words in front of any others. -/
def Settled (spellings : List (Text × Slot)) : Phrase → Prop
  | positional word => isOptionLike word = false
  | option word values as => isOptionLike word = true ∧ word ≠ "--".toList ∧
      ∀ behind, optionWord spellings word (values ++ behind) = .ok (as, values.length)

end Phrase

section
variable {spellings : List (Text × Slot)} {words ending : List Text} {found : List Phrase}

theorem IsPhrased.settled (hs : ∀ entry ∈ spellings, ¬entry.2.Runs)
    (h : IsPhrased spellings words found ending) : ∀ u ∈ found, u.Settled spellings := by
  induction h with
  | ending _ => simp
  | @option word following ending as used found hlike hdashes hword _ ih =>
    refine List.forall_mem_cons.mpr ⟨⟨hlike, hdashes, fun behind => ?_⟩, ih⟩
    rw [List.length_take_of_le (used_le_of_optionWord hlike hword)]
    exact optionWord_settled hs hlike hword behind
  | positional hlike _ ih => exact List.forall_mem_cons.mpr ⟨hlike, ih⟩

theorem phrases_of_settled (h : ∀ u ∈ found, u.Settled spellings) (he : IsEnding ending) :
    phrases spellings (found.flatMap Phrase.words ++ ending) = .ok (found, ending) := by
  induction found with
  | nil => exact he.phrases
  | cons u found ih =>
    obtain ⟨hu, hfound⟩ := List.forall_mem_cons.mp h
    rw [List.flatMap_cons, List.append_assoc]
    cases u with
    | positional word =>
      rw [Phrase.words, List.singleton_append, phrases_positional hu, ih hfound]
      rfl
    | option word values as =>
      obtain ⟨hlike, hdashes, hword⟩ := hu
      rw [Phrase.words, List.cons_append, phrases_option hlike hdashes (hword _), List.drop_left,
        List.take_left, ih hfound]
      rfl

end

/-- Phrases in another order, which is the same among those for the positionals, and among those
that bind any one variable. -/
structure Reorders (found others : List Phrase) : Prop where
  perm : others.Perm found
  positional : others.filter (·.IsPositional) = found.filter (·.IsPositional)
  binding : ∀ x, others.filter (·.Binds x) = found.filter (·.Binds x)

theorem flatMap_filter {α β : Type} {f : α → List β} {q : α → Prop} [DecidablePred q]
    (hq : ∀ u, ¬q u → f u = []) (us : List α) : (us.filter q).flatMap f = us.flatMap f := by
  induction us with
  | nil => rfl
  | cons u us ih =>
    by_cases hu : q u
    · simp [List.filter_cons_of_pos, hu, ih]
    · simp [List.filter_cons_of_neg, hu, hq u hu, ih]

namespace Reorders
variable {found others : List Phrase}

theorem left_eq (h : Reorders found others) :
    others.flatMap Phrase.left = found.flatMap Phrase.left := by
  have hq : ∀ u : Phrase, ¬u.IsPositional → u.left = [] := by
    intro u hu
    cases u with
    | positional word => exact absurd trivial hu
    | option word values as => rfl
  rw [← flatMap_filter hq others, ← flatMap_filter hq found, h.positional]

theorem get?_eq (h : Reorders found others) (b : Bindings) (x : Text) :
    (Assignment.applyAll b (others.flatMap Phrase.assignments)).get? x =
      (Assignment.applyAll b (found.flatMap Phrase.assignments)).get? x := by
  have hq : ∀ u : Phrase, ¬u.Binds x → u.assignments.filter (·.name = x) = [] := by
    intro u hu
    simpa [Phrase.Binds] using hu
  rw [Assignment.get?_applyAll_filter b (others.flatMap _),
    Assignment.get?_applyAll_filter b (found.flatMap _), List.filter_flatMap, List.filter_flatMap,
    ← flatMap_filter hq others, ← flatMap_filter hq found, h.binding x]

end Reorders

end Matching

namespace Pattern

/-- The words behind the subcommands are cut into phrases, and if no option has a run of values,
these may stand in any order that keeps those for the positionals, and those that bind a common
variable, in theirs: the match succeeds again with the same bindings. -/
theorem bind_reordered {p : Pattern} (hruns : ∀ s ∈ p.optionSlots, ¬s.Runs) {rest : List Text}
    {b : Bindings} (hb : p.bind (p.command :: (p.subcommands ++ rest)) = .ok b) :
    ∃ found ending, phrases p.spellings rest = .ok (found, ending) ∧
      rest = found.flatMap Phrase.words ++ ending ∧ IsEnding ending ∧
      ∀ others, Reorders found others →
        ∃ c, p.bind (p.command :: (p.subcommands ++ (others.flatMap Phrase.words ++ ending))) =
            .ok c ∧ ∀ x, c.get? x = b.get? x := by
  obtain ⟨⟨as, left⟩, hscan, -⟩ := bind_eq_ok.mp ((bind_arguments p rest).symm.trans hb)
  obtain ⟨⟨found, ending⟩, hfound, he⟩ :=
    bind_eq_ok.mp ((scanOptions_eq_phrases rest).symm.trans hscan)
  have hphrased := isPhrased_of_phrases hfound
  obtain ⟨hwords, hending⟩ := hphrased.words_eq
  refine ⟨found, ending, hfound, hwords, hending, fun others hothers => ?_⟩
  have hsettled : ∀ u ∈ others, u.Settled p.spellings := fun u hu =>
    hphrased.settled (fun _ hentry => hruns _ (mem_optionSlots_of_spellings hentry)) u
      (hothers.perm.mem_iff.mp hu)
  have hothersScan : scanOptions p.spellings (others.flatMap Phrase.words ++ ending) =
      .ok (others.flatMap Phrase.assignments, left) := by
    obtain ⟨-, rfl⟩ := Prod.mk.inj (Except.ok.inj he)
    rw [scanOptions_eq_phrases, phrases_of_settled hsettled hending, ok_bind, ← hothers.left_eq]
    rfl
  obtain ⟨rfl, -⟩ := Prod.mk.inj (Except.ok.inj he)
  exact bind_of_scanOptions hb hscan hothersScan (hothers.get?_eq [])

def installer : Pattern where
  command := "install".toList
  subcommands := []
  arguments := [
    ⟨some "V".toList, .flag, ["-v".toList], false, false, none⟩,
    ⟨some "MODE".toList, .exactly 1, ["-m".toList, "--mode".toList], false, false, none⟩,
    ⟨some "LIST".toList, .atLeastOne, ["-l".toList, "--list".toList], false, false,
      some ",".toList⟩,
    ⟨some "SRC".toList, .atLeastOne, [], true, true, none⟩,
    ⟨some "DST".toList, .exactly 1, [], true, true, none⟩]
  groups := []

def installed : Bindings := [
  ("V".toList, .flag true), ("MODE".toList, .text "644".toList),
  ("LIST".toList, .list ["x".toList, "y".toList, "z".toList]),
  ("SRC".toList, .list ["a".toList, "b".toList]), ("DST".toList, .text "-c".toList)]

def installing : List Phrase := [
  .option "-vm".toList ["644".toList]
    [.put "V".toList (.flag true), .put "MODE".toList (.text "644".toList)],
  .positional "a".toList,
  .option "-l".toList ["x,y".toList] [.extend "LIST".toList ["x".toList, "y".toList]],
  .positional "b".toList,
  .option "--list=z".toList [] [.extend "LIST".toList ["z".toList]]]

def reinstalling : List Phrase := [
  .positional "a".toList, .positional "b".toList,
  .option "-l".toList ["x,y".toList] [.extend "LIST".toList ["x".toList, "y".toList]],
  .option "--list=z".toList [] [.extend "LIST".toList ["z".toList]],
  .option "-vm".toList ["644".toList]
    [.put "V".toList (.flag true), .put "MODE".toList (.text "644".toList)]]

theorem reorders_installing : Reorders installing reinstalling where
  perm := by decide
  positional := by decide
  binding := by
    intro x
    by_cases hl : x = "LIST".toList
    · subst hl
      decide
    · have hl : ¬['L', 'I', 'S', 'T'] = x := Ne.symm hl
      simp [installing, reinstalling, List.filter_cons, Phrase.Binds, Phrase.assignments,
        Assignment.name, hl]

theorem bind_reordered_installing :
    (∀ s ∈ installer.optionSlots, ¬s.Runs) ∧
      installer.bind (["install", "-vm", "644", "a", "-l", "x,y", "b", "--list=z", "--",
        "-c"].map String.toList) = .ok installed ∧
      ∃ c, installer.bind (["install", "a", "b", "-l", "x,y", "--list=z", "-vm", "644", "--",
        "-c"].map String.toList) = .ok c ∧ ∀ x, c.get? x = installed.get? x := by
  have hruns : ∀ s ∈ installer.optionSlots, ¬s.Runs := by decide
  have hb : installer.bind (installer.command :: (installer.subcommands ++
      ["-vm", "644", "a", "-l", "x,y", "b", "--list=z", "--", "-c"].map String.toList)) =
        .ok installed := by
    cbv
  have hphrases : phrases installer.spellings
      (["-vm", "644", "a", "-l", "x,y", "b", "--list=z", "--", "-c"].map String.toList) =
        .ok (installing, ["--".toList, "-c".toList]) := by
    cbv
  obtain ⟨found, ending, hfound, -, -, h⟩ := bind_reordered hruns hb
  obtain ⟨rfl, rfl⟩ := Prod.mk.inj (Except.ok.inj (hphrases.symm.trans hfound))
  exact ⟨hruns, hb, h reinstalling reorders_installing⟩

end Pattern
end Countermand

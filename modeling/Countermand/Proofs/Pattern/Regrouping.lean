import Countermand.Proofs.Pattern.Naming

/-! The order of declarations. What an option is called and binds does not depend on where it is
declared, on its own or in a group that is not required; so patterns with the same positionals, the
same options in any order and the same required groups match the same command lines. -/
namespace Countermand
open Results Matching

namespace Slot

structure Resembles (s t : Slot) : Prop where
  variableName : t.variableName = s.variableName
  argument : t.argument = s.argument

theorem Resembles.isFlag {s t : Slot} (h : s.Resembles t) : t.isFlag = s.isFlag := by
  rw [Slot.isFlag, h.argument, Slot.isFlag]

theorem filter_positional_assign (options others positionals : Nat) (as : List Argument) :
    (assign options positionals as).filter (·.argument.positional) =
      assign others positionals (as.filter (·.positional)) := by
  induction as generalizing options positionals with
  | nil => rfl
  | cons a as ih => by_cases h : a.positional <;> simp [assign, h, ih]

end Slot

namespace Matching
variable {s t : Slot} {found others : List (Text × Slot)}

theorem occurrence_congr (h : s.Resembles t) (attached : Option Text) (following : List Text) :
    occurrence t attached following = occurrence s attached following := by
  simp only [occurrence, h.isFlag, h.variableName, h.argument]

def Follows (found others : List (Text × Slot)) : Prop :=
  ∀ name s, findOption found name = .ok s → ∃ t, findOption others name = .ok t ∧ s.Resembles t

theorem Follows.cluster (h : Follows found others) {letters : Text} {following : List Text}
    {r : List Assignment × Nat} (hr : cluster found letters following = .ok r) :
    cluster others letters following = .ok r := by
  induction letters generalizing r with
  | nil => exact hr
  | cons c cs ih =>
    rw [Matching.cluster] at hr ⊢
    obtain ⟨s, hs, hr⟩ := bind_eq_ok.mp hr
    obtain ⟨t, ht, hst⟩ := h _ s hs
    rw [ht, ok_bind, hst.isFlag]
    split_ifs at hr ⊢ with hflag
    · obtain ⟨⟨as, used⟩, hcs, he⟩ := bind_eq_ok.mp hr
      rw [ih hcs, ok_bind, hst.variableName]
      exact he
    all_goals rwa [occurrence_congr hst]

theorem Follows.optionWord (h : Follows found others) {word : Text}
    (hlike : isOptionLike word = true) {following : List Text} {r : List Assignment × Nat}
    (hr : optionWord found word following = .ok r) : optionWord others word following = .ok r := by
  rcases optionLike_cases hlike with hlong | ⟨c, cs, hc, rfl⟩
  · rw [Matching.optionWord, if_pos hlong] at hr ⊢
    split at hr
    all_goals
      obtain ⟨s, hs, hr⟩ := bind_eq_ok.mp hr
      obtain ⟨t, ht, hst⟩ := h _ s hs
      rw [ht, ok_bind, occurrence_congr hst]
      exact hr
  · rw [optionWord_letters hc] at hr ⊢
    exact h.cluster hr

theorem Follows.scanOptions (h : Follows found others) {words : List Text}
    {r : List Assignment × List Text} (hr : scanOptions found words = .ok r) :
    scanOptions others words = .ok r := by
  fun_induction Matching.scanOptions found words generalizing r with
  | case1 => rwa [Matching.scanOptions]
  | case2 following => rwa [Matching.scanOptions, if_pos rfl]
  | case3 word following hdashes hlike ih =>
    obtain ⟨⟨as, used⟩, hword, hr⟩ := bind_eq_ok.mp hr
    obtain ⟨⟨more, left⟩, hmore, he⟩ := bind_eq_ok.mp hr
    rw [Matching.scanOptions, if_neg hdashes, if_pos hlike, h.optionWord hlike hword, ok_bind]
    dsimp only
    rw [ih used hmore]
    exact he
  | case4 word following hdashes hlike ih =>
    obtain ⟨⟨as, left⟩, hmore, he⟩ := bind_eq_ok.mp hr
    rw [Matching.scanOptions, if_neg hdashes, if_neg hlike, ih hmore]
    exact he

end Matching

namespace Pattern

/-- The members of the required groups, whose order does not count. -/
def requiredGroups (p : Pattern) : List (Multiset Argument) :=
  (p.groups.filter (·.required)).map fun g => (g.members : Multiset Argument)

/-- Two patterns for the same command line that declare their options in another order, or group
those otherwise that belong to no required group. -/
structure Regroups (p q : Pattern) : Prop where
  command : q.command = p.command
  subcommands : q.subcommands = p.subcommands
  positionals : q.allArguments.filter (·.positional) = p.allArguments.filter (·.positional)
  options : (q.allArguments.filter (!·.positional)).Perm (p.allArguments.filter (!·.positional))
  required : q.requiredGroups.Perm p.requiredGroups

/-- Every argument has a variable of its own, and every option name is declared once. -/
structure Distinct (p : Pattern) : Prop where
  named : ∀ a ∈ p.allArguments, ∃ x, a.variableName = some x
  optionNames : p.optionNames.Nodup
  variableNames : p.variableNames.Nodup

section
variable {p q : Pattern} {s t : Slot}

theorem Regroups.symm (h : Regroups p q) : Regroups q p :=
  ⟨h.command.symm, h.subcommands.symm, h.positionals.symm, h.options.symm, h.required.symm⟩

theorem Regroups.perm (h : Regroups p q) : q.allArguments.Perm p.allArguments := by
  have hq := List.filter_append_perm (·.positional) q.allArguments
  have hp := List.filter_append_perm (·.positional) p.allArguments
  rw [h.positionals] at hq
  exact (hq.symm.trans (h.options.append_left _)).trans hp

theorem map_argument_optionSlots (p : Pattern) :
    p.optionSlots.map Slot.argument = p.allArguments.filter (!·.positional) := by
  rw [← map_argument_slots, List.filter_map]
  rfl

theorem variableName_of_argument (hp : p.Distinct) (hs : s ∈ p.slots) :
    s.argument.variableName = some s.variableName := by
  have hmem : s.argument ∈ p.allArguments := map_argument_slots p ▸ List.mem_map_of_mem hs
  obtain ⟨x, hx⟩ := hp.named _ hmem
  rw [hx, Slot.variableName_of_mem_assign hs hx]

theorem Distinct.resembles (hp : p.Distinct) (hq : q.Distinct) (hs : s ∈ p.slots)
    (ht : t ∈ q.slots) (h : t.argument = s.argument) : s.Resembles t := by
  refine ⟨Option.some.inj ?_, h⟩
  rw [← variableName_of_argument hq ht, h, variableName_of_argument hp hs]

theorem Distinct.eq_of_variableName (hp : p.Distinct) (hs : s ∈ p.slots) (ht : t ∈ p.slots)
    (h : s.variableName = t.variableName) : s = t :=
  List.inj_on_of_nodup_map hp.variableNames hs ht h

theorem Regroups.distinct (h : Regroups p q) (hp : p.Distinct) : q.Distinct := by
  have hnamed : ∀ a ∈ q.allArguments, ∃ x, a.variableName = some x := fun a ha =>
    hp.named a (h.perm.mem_iff.mp ha)
  have hnames (r : Pattern) : r.optionNames =
      (r.allArguments.filter (!·.positional)).flatMap Argument.spellings := by
    rw [← map_argument_optionSlots, List.flatMap_map]
    rfl
  have hvariables {r : Pattern} (hr : ∀ a ∈ r.allArguments, ∃ x, a.variableName = some x) :
      r.variableNames.map some = r.allArguments.map Argument.variableName := by
    rw [← map_argument_slots, List.map_map, Pattern.variableNames, List.map_map]
    refine List.map_congr_left fun s hs => ?_
    obtain ⟨x, hx⟩ := hr s.argument (map_argument_slots r ▸ List.mem_map_of_mem hs)
    simp [hx, Slot.variableName_of_mem_assign hs hx]
  refine ⟨hnamed, ?_, ?_⟩
  · rw [hnames, (h.options.flatMap_right _).nodup_iff, ← hnames]
    exact hp.optionNames
  · rw [← List.nodup_map_iff (Option.some_injective _), hvariables hnamed,
      (h.perm.map _).nodup_iff, ← hvariables hp.named,
      List.nodup_map_iff (Option.some_injective _)]
    exact hp.variableNames

theorem Regroups.exists_option (h : Regroups p q) (hp : p.Distinct) (hs : s ∈ p.optionSlots) :
    ∃ t ∈ q.optionSlots, s.Resembles t := by
  have hmem : s.argument ∈ q.allArguments.filter (!·.positional) := by
    rw [h.options.mem_iff, ← map_argument_optionSlots]
    exact List.mem_map_of_mem hs
  rw [← map_argument_optionSlots] at hmem
  obtain ⟨t, ht, he⟩ := List.mem_map.mp hmem
  exact ⟨t, ht, hp.resembles (h.distinct hp) (mem_slots_of_optionSlots hs)
    (mem_slots_of_optionSlots ht) he⟩

theorem Regroups.positionalSlots (h : Regroups p q) : q.positionalSlots = p.positionalSlots := by
  have hslots (r : Pattern) :
      r.positionalSlots = Slot.assign 0 0 (r.allArguments.filter (·.positional)) :=
    Slot.filter_positional_assign 0 0 0 _
  rw [hslots, hslots, h.positionals]

theorem Regroups.names (h : Regroups p q) (hp : p.Distinct) {name : Text} (hn : p.Names name s) :
    ∃ t, q.Names name t ∧ s.Resembles t := by
  obtain ⟨hs, hname⟩ := hn.declared
  obtain ⟨t, ht, hst⟩ := h.exists_option hp hs
  exact ⟨t, (names_iff (h.distinct hp).optionNames).mpr ⟨ht, hst.argument ▸ hname⟩, hst⟩

theorem Regroups.declared (h : Regroups p q) (hp : p.Distinct) {name : Text}
    (hn : name ∈ p.optionNames) : name ∈ q.optionNames := by
  obtain ⟨s, hs, hname⟩ := List.mem_flatMap.mp hn
  obtain ⟨t, ht, hst⟩ := h.exists_option hp hs
  exact List.mem_flatMap.mpr ⟨t, ht, hst.argument ▸ hname⟩

theorem Regroups.abbreviates (h : Regroups p q) (hp : p.Distinct) {short : Text}
    (ha : p.Abbreviates short s) : ∃ t, q.Abbreviates short t ∧ s.Resembles t := by
  obtain ⟨full, hfull, hfront⟩ := ha.front
  obtain ⟨t, ht, hst⟩ := h.names hp hfull
  refine ⟨t, ⟨fun hn => ha.undeclared (h.symm.declared (h.distinct hp) hn), ha.long,
    ⟨full, ht, hfront⟩, fun known u hu hknown => ?_⟩, hst⟩
  obtain ⟨v, hv, huv⟩ := h.symm.names (h.distinct hp) hu
  obtain rfl := ha.only known v hv hknown
  refine (h.distinct hp).eq_of_variableName (mem_slots_of_optionSlots hu.declared.1)
    (mem_slots_of_optionSlots ht.declared.1) ?_
  rw [← huv.variableName, hst.variableName]

theorem Regroups.follows (h : Regroups p q) (hp : p.Distinct) :
    Follows p.spellings q.spellings := by
  intro name s hs
  rcases findOption_eq_ok_iff.mp hs with hn | ha
  · obtain ⟨t, ht, hst⟩ := h.names hp hn
    exact ⟨t, findOption_eq_ok_iff.mpr (.inl ht), hst⟩
  · obtain ⟨t, ht, hst⟩ := h.abbreviates hp ha
    exact ⟨t, findOption_eq_ok_iff.mpr (.inr ht), hst⟩

/-- Options are completed in any order: a required one is bound before, and a flag of the same
variable is the same option. -/
theorem Regroups.completeOptions (h : Regroups p q) (hp : p.Distinct) {given b : Bindings}
    (hb : completeOptions given p.optionSlots = .ok b) :
    ∃ c, completeOptions given q.optionSlots = .ok c ∧ ∀ x, c.get? x = b.get? x := by
  have hq := h.distinct hp
  have hflags (x : Text) : (∃ t ∈ q.optionSlots, t.isFlag = true ∧ t.variableName = x) ↔
      ∃ s ∈ p.optionSlots, s.isFlag = true ∧ s.variableName = x := by
    constructor
    · rintro ⟨t, ht, hflag, rfl⟩
      obtain ⟨s, hs, hts⟩ := h.symm.exists_option hq ht
      exact ⟨s, hs, hts.isFlag.trans hflag, hts.variableName⟩
    · rintro ⟨s, hs, hflag, rfl⟩
      obtain ⟨t, ht, hst⟩ := h.exists_option hp hs
      exact ⟨t, ht, hst.isFlag.trans hflag, hst.variableName⟩
  have hbound : ∀ t ∈ q.optionSlots, t.argument.required = true → t.isFlag = false →
      (given.get? t.variableName).isSome = true := by
    intro t ht hrequired hflag
    obtain ⟨s, hs, hts⟩ := h.symm.exists_option hq ht
    have hsome := required_of_completeOptions hb s hs (hts.argument ▸ hrequired)
    rw [get?_of_completeOptions hb, if_neg, Option.or_none, hts.variableName] at hsome
    · exact hsome
    · rintro ⟨u, hu, huflag, hname⟩
      obtain rfl := hp.eq_of_variableName (mem_slots_of_optionSlots hu)
        (mem_slots_of_optionSlots hs) hname
      rw [hts.isFlag, hflag] at huflag
      exact absurd huflag (by simp)
  obtain ⟨c, hc⟩ := exists_completeOptions given q.optionSlots hbound
  refine ⟨c, hc, fun x => ?_⟩
  rw [get?_of_completeOptions hc, get?_of_completeOptions hb]
  simp only [hflags]

theorem slots_groups (p : Pattern) : (p.slots.drop p.arguments.length).map Slot.argument =
    p.groups.flatMap Group.members := by
  rw [List.map_drop, map_argument_slots, allArguments, List.drop_left]

/-- Each required group has the same members in the other pattern. -/
theorem Regroups.checkGroups (h : Regroups p q) (hp : p.Distinct) {b c : Bindings}
    (hbc : ∀ x, c.get? x = b.get? x)
    (hb : checkGroups b (groupSlots p.groups (p.slots.drop p.arguments.length)) = .ok ()) :
    checkGroups c (groupSlots q.groups (q.slots.drop q.arguments.length)) = .ok () := by
  rw [checkGroups_eq_ok_iff] at hb ⊢
  rintro ⟨k, members⟩ hentry hrequired
  obtain ⟨hk, hmembers, hslots⟩ := mem_groupSlots _ (slots_groups q) hentry
  have hgroup : (k.members : Multiset Argument) ∈ p.requiredGroups :=
    h.required.mem_iff.mp (List.mem_map.mpr ⟨k, List.mem_filter.mpr ⟨hk, hrequired⟩, rfl⟩)
  obtain ⟨g, hg, hperm⟩ := List.mem_map.mp hgroup
  obtain ⟨hg, hgrequired⟩ := List.mem_filter.mp hg
  obtain ⟨gmembers, hgentry⟩ := exists_mem_groupSlots hg (p.slots.drop p.arguments.length)
  obtain ⟨-, hgmembers, hgslots⟩ := mem_groupSlots _ (slots_groups p) hgentry
  obtain ⟨s, hs, v, hv, hset⟩ := hb _ hgentry hgrequired
  have hmem : s.argument ∈ members.map Slot.argument := by
    rw [hmembers, ← (Multiset.coe_eq_coe.mp hperm).mem_iff, ← hgmembers]
    exact List.mem_map_of_mem hs
  obtain ⟨t, ht, he⟩ := List.mem_map.mp hmem
  have hst := hp.resembles (h.distinct hp) (List.mem_of_mem_drop (hgslots s hs))
    (List.mem_of_mem_drop (hslots t ht)) he
  exact ⟨t, ht, v, by rw [hbc, hst.variableName, hv], hset⟩

theorem Regroups.bind (h : Regroups p q) (hp : p.Distinct) {words : List Text} {b : Bindings}
    (hb : p.bind words = .ok b) : ∃ c, q.bind words = .ok c ∧ ∀ x, c.get? x = b.get? x := by
  obtain ⟨rest, assignments, slices, hsteps⟩ := exists_steps_of_bind hb
  obtain ⟨left, hscan, hallocate⟩ := hsteps.options
  obtain ⟨c, hc, hbc⟩ := h.completeOptions hp hsteps.completed
  refine ⟨c, ?_, hbc⟩
  rw [hsteps.command, ← h.command, ← h.subcommands, bind_arguments,
    (h.follows hp).scanOptions hscan, ok_bind, h.positionalSlots]
  simp only [hallocate, ok_bind, hc, h.checkGroups hp hbc hsteps.checked, pure_eq_ok]

/-- A pattern that was read and any pattern with the same command, subcommands and positionals, the
same options in any order and anywhere, and the same required groups, match the same command lines,
with the same values for all variables. -/
theorem bind_regrouped {t : Text} (hp : read t = .ok p) (h : Regroups p q)
    (hnames : p.optionNames.Nodup) (hvariables : p.variableNames.Nodup) (words : List Text) :
    ((∃ b, p.bind words = .ok b) ↔ ∃ c, q.bind words = .ok c) ∧
      ∀ b c, p.bind words = .ok b → q.bind words = .ok c → ∀ x, b.get? x = c.get? x := by
  have hdistinct : p.Distinct :=
    ⟨fun a ha => (wellFormed_of_read hp a ha).2, hnames, hvariables⟩
  refine ⟨⟨?_, ?_⟩, fun b c hb hc x => ?_⟩
  · rintro ⟨b, hb⟩
    exact (h.bind hdistinct hb).imp fun _ => And.left
  · rintro ⟨c, hc⟩
    exact (h.symm.bind (h.distinct hdistinct) hc).imp fun _ => And.left
  · obtain ⟨c', hc', hsame⟩ := h.bind hdistinct hb
    obtain rfl := Except.ok.inj (hc.symm.trans hc')
    exact (hsame x).symm

end

def noClobber : Argument where
  variableName := some "NO_CLOBBER".toList
  quantifier := .flag
  spellings := ["-n".toList, "--no-clobber".toList]
  positional := false
  required := false
  delimiter := none

def interactive : Argument :=
  { noClobber with
    variableName := some "INTERACTIVE".toList
    spellings := ["-i".toList, "--interactive".toList] }

def verbose : Argument :=
  { noClobber with
    variableName := some "VERBOSE".toList
    spellings := ["-v".toList, "--verbose".toList] }

def source : Argument :=
  ⟨some "SRC".toList, .exactly 1, [], true, true, none⟩

def destination : Argument := { source with variableName := some "DST".toList }

def carefulMove : Pattern where
  command := "mv".toList
  subcommands := []
  arguments := [verbose, source, destination]
  groups := [⟨true, [noClobber, interactive]⟩]

def regroupedMove : Pattern where
  command := "mv".toList
  subcommands := []
  arguments := [source, destination]
  groups := [⟨false, [verbose]⟩, ⟨true, [interactive, noClobber]⟩]

theorem read_carefulMove :
    read "mv !([?:-n --no-clobber] [?:-i --interactive]) [?:-v --verbose] <SRC> <DST>".toList =
      .ok carefulMove := by
  cbv

theorem read_regroupedMove :
    read "mv <SRC> <DST> ([?:-v --verbose]) !([?:-i --interactive] [?:-n --no-clobber])".toList =
      .ok regroupedMove := by
  cbv

theorem regroups_carefulMove : Regroups carefulMove regroupedMove where
  command := rfl
  subcommands := rfl
  positionals := rfl
  options := by decide
  required := by
    have hswap : ([interactive, noClobber] : Multiset Argument) = [noClobber, interactive] :=
      Multiset.coe_eq_coe.mpr (List.Perm.swap _ _ _)
    show [([interactive, noClobber] : Multiset Argument)].Perm
      [([noClobber, interactive] : Multiset Argument)]
    rw [hswap]

/-- An abbreviated option is found in its group wherever the group stands. -/
theorem bind_regrouped_carefulMove :
    read "mv !([?:-n --no-clobber] [?:-i --interactive]) [?:-v --verbose] <SRC> <DST>".toList =
        .ok carefulMove ∧
      read "mv <SRC> <DST> ([?:-v --verbose]) !([?:-i --interactive] [?:-n --no-clobber])".toList =
        .ok regroupedMove ∧
      Regroups carefulMove regroupedMove ∧ carefulMove.optionNames.Nodup ∧
      carefulMove.variableNames.Nodup ∧
      ∃ c, regroupedMove.bind (["mv", "--no", "a", "b"].map String.toList) = .ok c ∧
        c.get? "NO_CLOBBER".toList = some (.flag true) := by
  have hnames : carefulMove.optionNames.Nodup := by decide
  have hvariables : carefulMove.variableNames.Nodup := by decide
  have hb : carefulMove.bind (["mv", "--no", "a", "b"].map String.toList) = .ok
      [("NO_CLOBBER".toList, .flag true), ("SRC".toList, .text "a".toList),
        ("DST".toList, .text "b".toList), ("VERBOSE".toList, .flag false),
        ("INTERACTIVE".toList, .flag false)] := by
    cbv
  obtain ⟨hmatch, hsame⟩ := bind_regrouped read_carefulMove regroups_carefulMove hnames hvariables
    (["mv", "--no", "a", "b"].map String.toList)
  obtain ⟨c, hc⟩ := hmatch.mp ⟨_, hb⟩
  exact ⟨read_carefulMove, read_regroupedMove, regroups_carefulMove, hnames, hvariables, c, hc,
    (hsame _ c hb hc _).symm⟩

end Pattern
end Countermand

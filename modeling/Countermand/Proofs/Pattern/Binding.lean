import Countermand.Proofs.Pattern.Occurrence

/-! What a successful match binds: every variable that the pattern promises and no other, each to
a value of the shape of its argument. -/
namespace Countermand
open Results Matching

namespace Matching

theorem exists_taken_of_allocate {s : Slot} {slots : List Slot} {words : List Text}
    {slices : List (Slot × List Text)} (h : allocate (s :: slots) words = .ok slices) :
    ∃ taken rest, s.least ≤ taken ∧ taken ≤ words.length ∧
      (∀ most, s.most? = some most → taken ≤ most) ∧
      allocate slots (words.drop taken) = .ok rest ∧ slices = (s, words.take taken) :: rest := by
  cases hmost : s.most? with
  | none =>
    simp only [allocate, hmost] at h
    split_ifs at h with hfew
    obtain ⟨rest, hrest, he⟩ := bind_eq_ok.mp h
    exact ⟨_, rest, by omega, by omega, by simp, hrest, (Except.ok.inj he).symm⟩
  | some most =>
    simp only [allocate, hmost] at h
    split_ifs at h with hfew
    obtain ⟨rest, hrest, he⟩ := bind_eq_ok.mp h
    exact ⟨_, rest, by omega, by omega, by simp, hrest, (Except.ok.inj he).symm⟩

theorem bounded_of_allocate {slots : List Slot} {words : List Text}
    {slices : List (Slot × List Text)} (h : allocate slots words = .ok slices) :
    slices.map Prod.fst = slots ∧ ∀ slice ∈ slices, slice.1.least ≤ slice.2.length ∧
      ∀ most, slice.1.most? = some most → slice.2.length ≤ most := by
  induction slots generalizing words slices with
  | nil =>
    cases words with
    | nil =>
      obtain rfl := Except.ok.inj h
      simp
    | cons word words => simp [allocate] at h
  | cons s slots ih =>
    obtain ⟨taken, rest, hleast, hle, hmost, hrest, rfl⟩ := exists_taken_of_allocate h
    obtain ⟨hfirst, hbounds⟩ := ih hrest
    have hlength : (words.take taken).length = taken := by simpa using hle
    refine ⟨by simp [hfirst], List.forall_mem_cons.mpr ⟨?_, hbounds⟩⟩
    dsimp only
    rw [hlength]
    exact ⟨hleast, hmost⟩

theorem eq_append_of_dropSubcommands {subcommands words rest : List Text}
    (h : dropSubcommands subcommands words = .ok rest) : words = subcommands ++ rest := by
  induction subcommands generalizing words with
  | nil => simpa [dropSubcommands] using h
  | cons s subcommands ih =>
    cases words with
    | nil => simp [dropSubcommands] at h
    | cons word words =>
      rw [dropSubcommands] at h
      split_ifs at h with hword
      rw [hword, ih h, List.cons_append]

theorem required_of_completeOptions {b b' : Bindings} {slots : List Slot}
    (h : completeOptions b slots = .ok b') :
    ∀ s ∈ slots, s.argument.required = true → (b'.get? s.variableName).isSome = true := by
  induction slots generalizing b with
  | nil => simp
  | cons s slots ih =>
    have hbound : (b.get? s.variableName).isSome = true ∨ s.isFlag = true ∨
        s.argument.required = false := by
      rw [completeOptions] at h
      split_ifs at h with hb hflag hr
      · exact .inl hb
      · exact .inr (.inl hflag)
      · exact .inr (.inr (by simpa using hr))
    intro t ht hrequired
    rcases List.mem_cons.mp ht with rfl | ht
    · rw [get?_of_completeOptions h]
      rcases hbound with hb | hflag | hr
      · simp [hb]
      · simp [hflag]
      · exact absurd hrequired (by simp [hr])
    · rw [completeOptions] at h
      split_ifs at h <;> exact ih h t ht hrequired

theorem writes_positional {s : Slot} (hs : s.argument.positional = true)
    (hw : s.argument.WellFormed) (hd : ∀ d, s.argument.delimiter = some d → d ≠ [])
    {words : List Text} (hleast : s.least ≤ words.length)
    (hmost : ∀ most, s.most? = some most → words.length ≤ most) :
    s.Writes (.put s.variableName (positionalValue s words)) := by
  have hvalue : ¬(s.argument.positional = false ∧ s.argument.quantifier.isFlag = true) := by
    simp [hs]
  cases hdelimiter : s.argument.delimiter with
  | some d =>
    have hitems : s.argument.HasShape (.list (words.flatMap (Text.items d))) := by
      refine Argument.hasShape_delimited hvalue hdelimiter fun item hitem => ?_
      obtain ⟨word, -, hword⟩ := List.mem_flatMap.mp hitem
      exact Text.of_mem_items (hd d hdelimiter) hword
    simp only [positionalValue, hdelimiter]
    exact Slot.writes_put hitems (by simp)
  | none =>
    cases hq : s.argument.quantifier with
    | flag => exact absurd hq (hw.counted hs).1
    | optional => exact absurd hq (hw.counted hs).2
    | exactly count =>
      have hlength : words.length = count := by
        simp only [Slot.least, Slot.most?, hdelimiter, hq, Quantifier.least,
          Quantifier.most?, Option.some.injEq, forall_eq'] at hleast hmost
        exact Nat.le_antisymm hmost hleast
      obtain ⟨htext, hlist⟩ := Argument.hasShape_counted hvalue hdelimiter hq hlength
      by_cases hone : ∃ t, words = [t]
      · obtain ⟨t, rfl⟩ := hone
        obtain rfl : 1 = count := hlength
        simp only [positionalValue, hdelimiter, hq]
        exact Slot.writes_put (htext t rfl) (by simp)
      · have hcount : count ≠ 1 := by
          rintro rfl
          exact hone (List.length_eq_one_iff.mp hlength)
        have hwords : positionalValue s words = .list words := by
          simp [positionalValue, hdelimiter, hq, hcount]
        rw [hwords]
        exact Slot.writes_put (hlist fun t ht => hone ⟨t, ht⟩) (by simp)
    | atLeastOne =>
      have hpos : 1 ≤ words.length := by
        simpa [Slot.least, hdelimiter, hq, Quantifier.least] using hleast
      simp only [positionalValue, hdelimiter, hq]
      refine Slot.writes_put ?_ (by simp)
      simp [Argument.HasShape, hs, hdelimiter, hq, List.ne_nil_of_length_pos hpos]
    | any =>
      simp only [positionalValue, hdelimiter, hq]
      refine Slot.writes_put ?_ (by simp)
      simp [Argument.HasShape, hs, hdelimiter, hq]

end Matching

namespace Argument

theorem delimited_of_nameOrdinals {place : Nat} {as : List Argument} (h : ∀ a ∈ as, a.Accepted) :
    ∀ a ∈ Pattern.nameOrdinals place as, ∀ d, a.delimiter = some d → d ≠ [] := by
  induction as generalizing place with
  | nil => simp [Pattern.nameOrdinals]
  | cons a as ih =>
    have ha := fun d hd => ((h a (by simp)).delimited d hd).1
    have has := fun b hb => h b (List.mem_cons_of_mem a hb)
    rw [Pattern.nameOrdinals]
    split_ifs with hp
    · exact List.forall_mem_cons.mpr ⟨ha, ih has⟩
    · exact List.forall_mem_cons.mpr ⟨ha, ih has⟩

end Argument

namespace Pattern

theorem Accepted.delimited {p : Pattern} (h : p.Accepted) :
    ∀ a ∈ p.allArguments, ∀ d, a.delimiter = some d → d ≠ [] := by
  obtain ⟨unnamed, harguments, haccepted⟩ := h.arguments
  intro a ha
  rcases List.mem_append.mp ha with ha | ha
  · rw [harguments] at ha
    exact Argument.delimited_of_nameOrdinals haccepted a ha
  · obtain ⟨g, hg, ha⟩ := List.mem_flatMap.mp ha
    exact fun d hd => (((h.groups g hg).members a ha).1.delimited d hd).1

theorem exists_mem_groupSlots {groups : List Group} {g : Group} (hg : g ∈ groups)
    (slots : List Slot) : ∃ members, (g, members) ∈ groupSlots groups slots := by
  induction groups generalizing slots with
  | nil => simp at hg
  | cons k groups ih =>
    rcases List.mem_cons.mp hg with rfl | hg
    · exact ⟨_, List.mem_cons_self⟩
    · obtain ⟨members, hmem⟩ := ih hg (slots.drop k.members.length)
      exact ⟨members, List.mem_cons_of_mem _ hmem⟩

/-- The steps of a match that succeeds. -/
structure Steps (p : Pattern) (words : List Text) (b : Bindings) (rest : List Text)
    (assignments : List Assignment) (slices : List (Slot × List Text)) : Prop where
  command : words = p.command :: (p.subcommands ++ rest)
  options : ∃ left, scanOptions p.spellings rest = .ok (assignments, left) ∧
    allocate p.positionalSlots left = .ok slices
  completed : completeOptions (Assignment.applyAll [] (assignments ++ slices.map fun slice =>
    .put slice.1.variableName (positionalValue slice.1 slice.2))) p.optionSlots = .ok b
  checked : checkGroups b (groupSlots p.groups (p.slots.drop p.arguments.length)) = .ok ()

theorem exists_steps_of_bind {p : Pattern} {words : List Text} {b : Bindings}
    (h : p.bind words = .ok b) :
    ∃ rest assignments slices, p.Steps words b rest assignments slices := by
  cases words with
  | nil => simp [bind] at h
  | cons command words =>
    rw [bind] at h
    split_ifs at h with hcommand
    obtain ⟨rest, hrest, h⟩ := bind_eq_ok.mp h
    obtain ⟨⟨assignments, left⟩, hscan, h⟩ := bind_eq_ok.mp h
    obtain ⟨slices, hallocate, h⟩ := bind_eq_ok.mp h
    obtain ⟨b', hcompleted, h⟩ := bind_eq_ok.mp h
    obtain ⟨⟨⟩, hchecked, he⟩ := bind_eq_ok.mp h
    obtain rfl := Except.ok.inj he
    refine ⟨rest, assignments, slices, ?_, ⟨left, hscan, hallocate⟩, hcompleted, hchecked⟩
    rw [eq_append_of_dropSubcommands hrest, not_not.mp hcommand]

def Occurs (p : Pattern) (s : Slot) (words : List Text) : Prop :=
  Matching.Occurs p.spellings s (words.drop (p.subcommands.length + 1))

/-- The slots to which a command line gives a value. -/
def IsGiven (p : Pattern) (words : List Text) (s : Slot) : Prop :=
  p.Occurs s words ∨ s ∈ p.positionalSlots

/-- The bindings that a pattern promises for a command line. -/
structure Promises (p : Pattern) (words : List Text) (b : Bindings) : Prop where
  only : ∀ x v, b.get? x = some v → x ∈ p.variableNames
  positional : ∀ s ∈ p.positionalSlots, (b.get? s.variableName).isSome = true
  required : ∀ s ∈ p.optionSlots, s.argument.required = true →
    (b.get? s.variableName).isSome = true
  option : ∀ s ∈ p.optionSlots, s.isFlag = false →
    ((b.get? s.variableName).isSome = true ↔ p.Occurs s words)
  flag : ∀ s ∈ p.optionSlots, s.isFlag = true →
    ∃ given, b.get? s.variableName = some (.flag given) ∧ (given = true ↔ p.Occurs s words)
  shaped : ∀ s ∈ p.slots, ∀ v, b.get? s.variableName = some v → s.argument.HasShape v
  grouped : ∀ g ∈ p.groups, g.required = true →
    ∃ a ∈ g.members, ∃ x, a.variableName = some x ∧ ∃ v, b.get? x = some v ∧ v.isSet = true

/-- What the slots of a pattern have if it was read and its variables are different. -/
structure Regular (p : Pattern) : Prop where
  wellFormed : ∀ s ∈ p.slots, s.argument.WellFormed
  delimited : ∀ s ∈ p.slots, ∀ d, s.argument.delimiter = some d → d ≠ []
  distinct : ∀ s ∈ p.slots, ∀ t ∈ p.slots, t.variableName = s.variableName → t = s

theorem regular_of_read {t : Text} {p : Pattern} (hp : read t = .ok p)
    (hvariables : p.variableNames.Nodup) : p.Regular := by
  have hargument : ∀ s ∈ p.slots, s.argument ∈ p.allArguments := fun s hs =>
    map_argument_slots p ▸ List.mem_map_of_mem hs
  exact ⟨fun s hs => (wellFormed_of_read hp _ (hargument s hs)).1,
    fun s hs => (accepted_of_read hp).delimited _ (hargument s hs),
    fun s hs t ht he => List.inj_on_of_nodup_map hvariables ht hs he⟩

section
variable {p : Pattern} {words rest : List Text} {b : Bindings} {assignments : List Assignment}
  {slices : List (Slot × List Text)}

theorem mem_optionSlots_of_spellings {name : Text} {s : Slot} (h : (name, s) ∈ p.spellings) :
    s ∈ p.optionSlots := by
  rw [spellings, List.mem_reverse] at h
  obtain ⟨t, ht, h⟩ := List.mem_flatMap.mp h
  obtain ⟨known, -, he⟩ := List.mem_map.mp h
  obtain ⟨-, rfl⟩ := Prod.mk.inj he
  exact ht

theorem Steps.occurs_iff (h : p.Steps words b rest assignments slices) (s : Slot) :
    p.Occurs s words ↔ Matching.Occurs p.spellings s rest := by
  rw [Occurs, h.command, List.drop_succ_cons, List.drop_left]

theorem mem_optionSlots_of_occurs {s : Slot} (h : p.Occurs s words) : s ∈ p.optionSlots := by
  obtain ⟨name, hname⟩ := mem_of_occurs h
  exact mem_optionSlots_of_spellings hname

/-- The assignments of a match are those of the options that occur and of all positionals. -/
theorem Steps.exists_written (h : p.Steps words b rest assignments slices) (hp : p.Regular) :
    ∃ written, List.Forall₂ Slot.Writes written (assignments ++ slices.map fun slice =>
        .put slice.1.variableName (positionalValue slice.1 slice.2)) ∧
      ∀ s, s ∈ written ↔ p.IsGiven words s := by
  obtain ⟨left, hscan, hallocate⟩ := h.options
  have hreg : ∀ entry ∈ p.spellings, IsOption entry.2 := by
    rintro ⟨name, s⟩ hentry
    obtain ⟨hs, hoption⟩ := List.mem_filter.mp (mem_optionSlots_of_spellings hentry)
    exact ⟨by simpa using hoption, hp.delimited s hs⟩
  obtain ⟨written, hwrites, hoccurs⟩ := exists_written_of_scanOptions hreg hscan
  obtain ⟨hfirst, hbounds⟩ := bounded_of_allocate hallocate
  have hpositionals : List.Forall₂ Slot.Writes p.positionalSlots (slices.map fun slice =>
      .put slice.1.variableName (positionalValue slice.1 slice.2)) := by
    rw [← hfirst, List.forall₂_map_left_iff, List.forall₂_map_right_iff, List.forall₂_same]
    intro slice hslice
    have hmem : slice.1 ∈ p.positionalSlots := hfirst ▸ List.mem_map_of_mem hslice
    obtain ⟨hs, hpositional⟩ := List.mem_filter.mp hmem
    obtain ⟨hleast, hmost⟩ := hbounds slice hslice
    exact writes_positional hpositional (hp.wellFormed _ hs) (hp.delimited _ hs) hleast hmost
  refine ⟨written ++ p.positionalSlots, List.rel_append hwrites hpositionals, fun s => ?_⟩
  rw [List.mem_append, hoccurs, IsGiven, h.occurs_iff]

theorem IsGiven.mem_slots {s : Slot} (h : p.IsGiven words s) : s ∈ p.slots := by
  rcases h with h | h
  · exact mem_slots_of_optionSlots (mem_optionSlots_of_occurs h)
  · exact (List.mem_filter.mp h).1

theorem mem_optionSlots_of_not_isGiven {s : Slot} (hs : s ∈ p.slots) (h : ¬p.IsGiven words s) :
    s ∈ p.optionSlots := by
  rcases List.mem_append.mp ((optionSlots_append_perm p).mem_iff.mpr hs) with ho | hpositional
  · exact ho
  · exact absurd (.inr hpositional) h

/-- A slot that is given has a value that it takes; any other is unbound, unless it is a flag. -/
theorem Steps.get?_slot (h : p.Steps words b rest assignments slices) (hp : p.Regular) {s : Slot}
    (hs : s ∈ p.slots) :
    (p.IsGiven words s → ∃ v, b.get? s.variableName = some v ∧ s.Takes v) ∧
      (¬p.IsGiven words s →
        b.get? s.variableName = if s.isFlag = true then some (.flag false) else none) := by
  obtain ⟨written, hwrites, hgiven⟩ := h.exists_written hp
  have hdistinct : ∀ t ∈ written, t.variableName = s.variableName → t = s := fun t ht =>
    hp.distinct s hs t ((hgiven t).mp ht).mem_slots
  obtain ⟨htakes, hbound⟩ := Slot.get?_applyAll hwrites hdistinct (b := [])
    fun v hv => absurd hv (by simp [Bindings.get?])
  have hfinal := get?_of_completeOptions h.completed s.variableName
  constructor
  · intro hs
    obtain ⟨v, hv⟩ := Option.isSome_iff_exists.mp (hbound.mpr (.inr ((hgiven s).mpr hs)))
    exact ⟨v, by simp [hfinal, hv], htakes v hv⟩
  · intro hnot
    have hoption := mem_optionSlots_of_not_isGiven hs hnot
    have hflag : (∃ t ∈ p.optionSlots, t.isFlag = true ∧ t.variableName = s.variableName) ↔
        s.isFlag = true := by
      constructor
      · rintro ⟨t, ht, hf, he⟩
        rwa [← hp.distinct s hs t (mem_slots_of_optionSlots ht) he]
      · exact fun hf => ⟨s, hoption, hf, rfl⟩
    have hunbound : (Assignment.applyAll [] (assignments ++ slices.map fun slice =>
        .put slice.1.variableName (positionalValue slice.1 slice.2))).get? s.variableName =
          none := by
      rw [← Option.not_isSome_iff_eq_none, hbound, hgiven]
      simpa [Bindings.get?] using hnot
    rw [hfinal, hunbound, Option.none_or, if_congr hflag rfl rfl]

theorem Steps.mem_variableNames (h : p.Steps words b rest assignments slices) (hp : p.Regular)
    {x : Text} {v : Value} (hv : b.get? x = some v) : x ∈ p.variableNames := by
  obtain ⟨written, hwrites, hgiven⟩ := h.exists_written hp
  rw [get?_of_completeOptions h.completed, Option.or_eq_some_iff] at hv
  rcases hv with hv | ⟨-, hv⟩
  · rcases Slot.exists_of_get?_applyAll hwrites hv with hnil | ⟨s, hs, rfl⟩
    · simp [Bindings.get?] at hnil
    · exact Pattern.mem_variableNames ((hgiven s).mp hs).mem_slots
  · split_ifs at hv with hflag
    obtain ⟨s, hs, -, rfl⟩ := hflag
    exact Pattern.mem_variableNames (mem_slots_of_optionSlots hs)

theorem Steps.exists_set (h : p.Steps words b rest assignments slices)
    (hnamed : ∀ a ∈ p.allArguments, ∃ x, a.variableName = some x) {g : Group} (hg : g ∈ p.groups)
    (hrequired : g.required = true) :
    ∃ a ∈ g.members, ∃ x, a.variableName = some x ∧ ∃ v, b.get? x = some v ∧ v.isSet = true := by
  have hmembers : (p.slots.drop p.arguments.length).map Slot.argument =
      p.groups.flatMap Group.members := by
    rw [List.map_drop, map_argument_slots, allArguments, List.drop_left]
  obtain ⟨slots, hentry⟩ := exists_mem_groupSlots hg (p.slots.drop p.arguments.length)
  obtain ⟨-, hslots, hsub⟩ := mem_groupSlots _ hmembers hentry
  obtain ⟨s, hs, v, hv, hset⟩ := checkGroups_eq_ok_iff.mp h.checked _ hentry hrequired
  have hmem : s.argument ∈ g.members := hslots ▸ List.mem_map_of_mem hs
  have hslot : s ∈ p.slots := List.mem_of_mem_drop (hsub s hs)
  obtain ⟨x, hx⟩ := hnamed s.argument (map_argument_slots p ▸ List.mem_map_of_mem hslot)
  have hname : s.variableName = x := Slot.variableName_of_mem_assign hslot hx
  exact ⟨s.argument, hmem, x, hx, v, hname ▸ hv, hset⟩

end

/-- Every match binds what the pattern promises. -/
theorem bind_promises {t : Text} {p : Pattern} (hp : read t = .ok p)
    (hvariables : p.variableNames.Nodup) {words : List Text} {b : Bindings}
    (hb : p.bind words = .ok b) : p.Promises words b := by
  obtain ⟨rest, assignments, slices, h⟩ := exists_steps_of_bind hb
  have hregular := regular_of_read hp hvariables
  have hslot : ∀ s ∈ p.slots, _ := fun s hs => h.get?_slot hregular hs
  have hoption : ∀ s ∈ p.optionSlots, s.argument.positional = false ∧
      (p.IsGiven words s ↔ p.Occurs s words) := by
    intro s hs
    have hpositional : s.argument.positional = false := by simpa using (List.mem_filter.mp hs).2
    refine ⟨hpositional, fun h => h.resolve_right fun hmem => ?_, .inl⟩
    exact absurd (List.mem_filter.mp hmem).2 (by simp [hpositional])
  constructor
  case only => exact fun x v => h.mem_variableNames hregular
  case positional =>
    intro s hs
    obtain ⟨v, hv, -⟩ := (hslot s (List.mem_filter.mp hs).1).1 (.inr hs)
    simp [hv]
  case required => exact required_of_completeOptions h.completed
  case option =>
    intro s hs hflag
    obtain ⟨hgiven, hother⟩ := hslot s (mem_slots_of_optionSlots hs)
    rw [← (hoption s hs).2]
    by_cases ho : p.IsGiven words s
    · obtain ⟨v, hv, -⟩ := hgiven ho
      simp [hv, ho]
    · simp [hother ho, hflag, ho]
  case flag =>
    intro s hs hflag
    obtain ⟨hgiven, hother⟩ := hslot s (mem_slots_of_optionSlots hs)
    rw [← (hoption s hs).2]
    by_cases ho : p.IsGiven words s
    · obtain ⟨v, hv, hshape, hne⟩ := hgiven ho
      rw [Argument.HasShape, if_pos ⟨(hoption s hs).1, hflag⟩] at hshape
      obtain ⟨given, rfl⟩ := hshape
      exact ⟨given, hv, by simpa [ho] using hne⟩
    · exact ⟨false, by rw [hother ho, if_pos hflag], by simp [ho]⟩
  case shaped =>
    intro s hs v hv
    obtain ⟨hgiven, hother⟩ := hslot s hs
    by_cases ho : p.IsGiven words s
    · obtain ⟨w, hw, hshape, -⟩ := hgiven ho
      obtain rfl := Option.some.inj (hv.symm.trans hw)
      exact hshape
    · rw [hother ho] at hv
      split_ifs at hv with hflag
      obtain rfl := Option.some.inj hv
      have hpositional := (hoption s (mem_optionSlots_of_not_isGiven hs ho)).1
      rw [Argument.HasShape, if_pos ⟨hpositional, hflag⟩]
      exact ⟨false, rfl⟩
  case grouped => exact fun g => h.exists_set fun a ha => (wellFormed_of_read hp a ha).2

/-- A command line that repeats a list, leaves out the value of an option and gives one flag. -/
def packing : List Text :=
  ["ar", "pack", "--skip", "a", "b", "-xs", "c", "--color", "--", "p,,q", "f", "-g"].map
    String.toList

def boundPacking : Bindings := [
  ("SKIP".toList, .list ["a".toList, "b".toList, "c".toList]), ("X".toList, .flag true),
  ("WHEN".toList, .list []), ("PARTS".toList, .list ["p".toList, "q".toList]),
  ("FILES".toList, .list ["f".toList, "-g".toList]), ("Y".toList, .flag false)]

theorem bind_packing : packer.bind packing = .ok boundPacking := by
  cbv

theorem bind_promises_packing :
    packer.bind packing = .ok boundPacking ∧ packer.variableNames.Nodup ∧
      packer.Promises packing boundPacking :=
  ⟨bind_packing, by decide, bind_promises read_packer (by decide) bind_packing⟩

end Pattern
end Countermand

import Countermand.Proofs.Pattern.Writing

/-! Writing values on a command line and binding them again. The options come first, in any order
and each under any of its names; two dashes end them, and the positionals follow. -/
namespace Countermand
open Results Matching

namespace Assignment

theorem get?_apply (b : Bindings) (a : Assignment) (x : Text) (hb : b.get? a.name = none) :
    (a.apply b).get? x = if x = a.name then some a.value else b.get? x := by
  cases a with
  | put name v => exact Bindings.get?_put b name x v
  | extend name items =>
    have hb : b.get? name = none := hb
    simp only [apply, Bindings.extend, hb]
    exact Bindings.get?_put b name x (.list items)

theorem get?_applyAll {as : List Assignment} (b : Bindings) (hd : (as.map name).Nodup)
    (hb : ∀ a ∈ as, b.get? a.name = none) :
    (∀ a ∈ as, (applyAll b as).get? a.name = some a.value) ∧
      ∀ x, (∀ a ∈ as, a.name ≠ x) → (applyAll b as).get? x = b.get? x := by
  induction as generalizing b with
  | nil => simp [applyAll]
  | cons a as ih =>
    obtain ⟨hnot, hd⟩ := List.nodup_cons.mp hd
    have hne : ∀ c ∈ as, c.name ≠ a.name := fun c hc he => hnot (List.mem_map.mpr ⟨c, hc, he⟩)
    have hstep := fun x => get?_apply b a x (hb a (by simp))
    obtain ⟨hin, hout⟩ := ih (a.apply b) hd fun c hc => by
      rw [hstep, if_neg (hne c hc)]
      exact hb c (by simp [hc])
    change (∀ c ∈ a :: as, (applyAll (a.apply b) as).get? c.name = some c.value) ∧
      ∀ x, (∀ c ∈ a :: as, c.name ≠ x) → (applyAll (a.apply b) as).get? x = b.get? x
    constructor
    · intro c hc
      rcases List.mem_cons.mp hc with rfl | hc
      · rw [hout _ hne, hstep, if_pos rfl]
      · exact hin c hc
    · intro x hx
      rw [hout x fun c hc => hx c (by simp [hc]), hstep, if_neg fun he => hx a (by simp) he.symm]

end Assignment

namespace Slot

theorem map_argument_assign (options positionals : Nat) (as : List Argument) :
    (assign options positionals as).map Slot.argument = as := by
  induction as generalizing options positionals with
  | nil => rfl
  | cons a as ih => by_cases h : a.positional <;> simp [assign, h, ih]

theorem variableName_of_mem_assign {options positionals : Nat} {as : List Argument} {s : Slot}
    {x : Text} (hs : s ∈ assign options positionals as) (hx : s.argument.variableName = some x) :
    s.variableName = x := by
  induction as generalizing options positionals with
  | nil => simp [assign] at hs
  | cons a as ih =>
    by_cases hp : a.positional
    · rw [assign, if_pos hp] at hs
      rcases List.mem_cons.mp hs with rfl | hs
      · simp_all
      · exact ih hs
    · rw [assign, if_neg hp] at hs
      rcases List.mem_cons.mp hs with rfl | hs
      · simp_all
      · exact ih hs

end Slot

namespace Pattern

/-- Values for the variables of a pattern, as a command line can give them. Only an option that is
no flag and not required may be left out. -/
structure Fits (p : Pattern) (values : Text → Option Value) : Prop where
  fits : ∀ s ∈ p.slots, ∀ v ∈ values s.variableName, s.argument.Fits v
  given : ∀ s ∈ p.slots,
    s.argument.positional = true ∨ s.isFlag = true ∨ s.argument.required = true →
      values s.variableName ≠ none
  grouped : ∀ g ∈ p.groups, g.required = true →
    ∃ a ∈ g.members, ∃ x ∈ a.variableName, ∃ v ∈ values x, v.isSet = true

structure Writable (p : Pattern) (values : Text → Option Value) (name : Slot → Text) (s : Slot) :
    Prop where
  option : s ∈ p.optionSlots
  declared : name s ∈ s.argument.spellings
  spelled : Argument.isSpelling (name s) = true
  fits : ∀ v, values s.variableName = some v → s.argument.Fits v

theorem Writable.not_positional {p : Pattern} {values : Text → Option Value} {name : Slot → Text}
    {s : Slot} (h : p.Writable values name s) : s.argument.positional = false := by
  simpa using (List.mem_filter.mp h.option).2

/-- The words of options in an order, each under the name chosen for it; an option that is left
out has none. -/
def writtenOptions (values : Text → Option Value) (name : Slot → Text) (order : List Slot) :
    List Text :=
  order.flatMap fun s => (values s.variableName).elim [] (s.argument.optionWords (name s))

def writtenPositionals (values : Text → Option Value) (slots : List Slot) : List Text :=
  slots.flatMap fun s => (values s.variableName).elim [] s.argument.positionalWords

end Pattern

namespace Matching

variable {p : Pattern} {values : Text → Option Value}

theorem optionLike_of_optionWords {s : Slot} {name : Text} (hn : Argument.isSpelling name = true)
    {v : Value} (hf : s.argument.Fits v) {rest : List Text}
    (hr : ∃ w ws, rest = w :: ws ∧ isOptionLike w = true) :
    ∃ w ws, s.argument.optionWords name v ++ rest = w :: ws ∧ isOptionLike w = true := by
  obtain ⟨hl, -⟩ := Argument.isOptionLike_of_isSpelling hn
  cases v with
  | flag given =>
    cases given with
    | false => exact hr
    | true => exact ⟨name, rest, rfl, hl⟩
  | text t =>
    obtain ⟨-, hq | ⟨hq, -, hne⟩⟩ := hf
    · exact ⟨name, t :: rest, by simp [Argument.optionWords, hq], hl⟩
    · exact ⟨Argument.attach name t, rest, by simp [Argument.optionWords, hq],
        (isOptionLike_attach hn hne).1⟩
  | list values =>
    obtain ⟨-, hf⟩ := hf
    cases hd : s.argument.delimiter with
    | none => exact ⟨name, values ++ rest, by simp [Argument.optionWords, hd], hl⟩
    | some d =>
      have hdel : d.Delimits values := by simpa [Argument.FitsList, hd] using hf
      by_cases hq : s.argument.quantifier = .optional
      · by_cases he : values = []
        · exact ⟨name, rest, by simp [Argument.optionWords, hd, hq, he], hl⟩
        · exact ⟨Argument.attach name (d.intercalate values), rest,
            by simp [Argument.optionWords, hd, hq, he],
            (isOptionLike_attach hn (hdel.intercalate_ne_nil he)).1⟩
      · exact ⟨name, d.intercalate values :: rest,
          by simp [Argument.optionWords, hd, hq], hl⟩

theorem optionLike_of_writtenOptions {name : Slot → Text} {order : List Slot}
    (hw : ∀ s ∈ order, p.Writable values name s) (tail : List Text) :
    ∃ w ws, Pattern.writtenOptions values name order ++ "--".toList :: tail = w :: ws ∧
      isOptionLike w = true := by
  induction order with
  | nil => exact ⟨_, _, rfl, rfl⟩
  | cons s order ih =>
    have hs := hw s (by simp)
    have ih := ih fun t ht => hw t (List.mem_cons_of_mem s ht)
    cases hv : values s.variableName with
    | none => simpa [Pattern.writtenOptions, hv] using ih
    | some v =>
      simpa [Pattern.writtenOptions, hv] using
        optionLike_of_optionWords hs.spelled (hs.fits v hv) ih

/-- Assignments of the values that options have, in their order; a flag that is not given may be
left out. -/
structure Assigns (values : Text → Option Value) (order : List Slot) (as : List Assignment) :
    Prop where
  names : (as.map Assignment.name).Sublist (order.map Slot.variableName)
  assigned : ∀ a ∈ as, values a.name = some a.value
  complete : ∀ s ∈ order, ∀ v, values s.variableName = some v → v ≠ .flag false →
    ∃ a ∈ as, a.name = s.variableName

section
variable {s : Slot} {order : List Slot} {as : List Assignment}

theorem Assigns.skip (h : Assigns values order as)
    (hs : ∀ v, values s.variableName = some v → v = .flag false) :
    Assigns values (s :: order) as where
  names := h.names.cons _
  assigned := h.assigned
  complete := by
    intro t ht v hv hne
    rcases List.mem_cons.mp ht with rfl | ht
    · exact absurd (hs v hv) hne
    · exact h.complete t ht v hv hne

theorem Assigns.cons (h : Assigns values order as) {a : Assignment}
    (hname : a.name = s.variableName) (ha : values a.name = some a.value) :
    Assigns values (s :: order) (a :: as) where
  names := by simpa [hname] using h.names.cons_cons s.variableName
  assigned := by
    intro c hc
    rcases List.mem_cons.mp hc with rfl | hc
    · exact ha
    · exact h.assigned c hc
  complete := by
    intro t ht v hv hne
    rcases List.mem_cons.mp ht with rfl | ht
    · exact ⟨a, by simp, hname⟩
    · obtain ⟨c, hc, hce⟩ := h.complete t ht v hv hne
      exact ⟨c, by simp [hc], hce⟩

end

/-- The scan of written options yields one assignment for each that has a value, but none for a
flag that is not given. -/
theorem scanOptions_written {name : Slot → Text} {order : List Slot} (hd : p.optionNames.Nodup)
    (hw : ∀ s ∈ order, p.Writable values name s) (tail : List Text) :
    ∃ as, scanOptions p.spellings
        (Pattern.writtenOptions values name order ++ "--".toList :: tail) = .ok (as, tail) ∧
      Assigns values order as := by
  induction order with
  | nil =>
    refine ⟨[], ?_, ⟨by simp, by simp, by simp⟩⟩
    simp [Pattern.writtenOptions, scanOptions]
  | cons s order ih =>
    have hs := hw s (by simp)
    have hrest := fun t ht => hw t (List.mem_cons_of_mem s ht)
    obtain ⟨as, hscan, has⟩ := ih hrest
    have silent (h : (values s.variableName).elim [] (s.argument.optionWords (name s)) = []) :
        scanOptions p.spellings (Pattern.writtenOptions values name (s :: order) ++
          "--".toList :: tail) = .ok (as, tail) := by
      simpa [Pattern.writtenOptions, h] using hscan
    cases hv : values s.variableName with
    | none => exact ⟨as, silent (by simp [hv]), has.skip (by simp [hv])⟩
    | some v =>
      by_cases hflag : v = .flag false
      · subst hflag
        exact ⟨as, silent (by simp [hv, Argument.optionWords]), has.skip (by simp [hv])⟩
      · obtain ⟨a, ha, haval, ho⟩ := scanOptions_optionWords
          (findOption_of_mem hd hs.option hs.declared) hs.spelled hs.not_positional
          (hs.fits v hv) hflag (optionLike_of_writtenOptions hrest tail) hscan
        refine ⟨a :: as, ?_, has.cons ha (by rw [ha, haval, hv])⟩
        simpa [Pattern.writtenOptions, hv] using ho

theorem positionalValue_positionalWords {s : Slot} {v : Value} (hp : s.argument.positional = true)
    (hf : s.argument.Fits v) : positionalValue s (s.argument.positionalWords v) = v := by
  cases v with
  | flag given => simp [Argument.Fits, hp] at hf
  | text t =>
    obtain ⟨hd, hq | hq⟩ := hf
    · simp [positionalValue, Argument.positionalWords, hd, hq]
    · simp [hp] at hq
  | list values =>
    obtain ⟨-, hf⟩ := hf
    cases hd : s.argument.delimiter with
    | some d =>
      have hdel : d.Delimits values := by simpa [Argument.FitsList, hd] using hf
      simp [positionalValue, Argument.positionalWords, hd, hdel.2]
    | none =>
      cases hq : s.argument.quantifier with
      | flag => simp [Argument.FitsList, hd, hq] at hf
      | optional => simp [positionalValue, Argument.positionalWords, hd, hq]
      | atLeastOne => simp [positionalValue, Argument.positionalWords, hd, hq]
      | any => simp [positionalValue, Argument.positionalWords, hd, hq]
      | exactly count =>
        obtain ⟨hc, hlen⟩ : count ≠ 1 ∧ values.length = count := by
          simpa [Argument.FitsList, hd, hq] using hf
        simp [positionalValue, Argument.positionalWords, hd, hq, hc]

theorem get?_of_completeOptions {b b' : Bindings} {slots : List Slot}
    (h : completeOptions b slots = .ok b') (x : Text) :
    b'.get? x = (b.get? x).or
      (if ∃ s ∈ slots, s.isFlag = true ∧ s.variableName = x then some (.flag false) else none) := by
  induction slots generalizing b with
  | nil =>
    obtain rfl := Except.ok.inj h
    simp
  | cons s slots ih =>
    rw [completeOptions] at h
    by_cases hb : (b.get? s.variableName).isSome
    · rw [if_pos hb] at h
      rw [ih h]
      by_cases hx : s.variableName = x
      · subst hx
        obtain ⟨v, hv⟩ := Option.isSome_iff_exists.mp hb
        simp [hv]
      · simp [hx]
    · rw [if_neg hb] at h
      by_cases hflag : s.isFlag
      · rw [if_pos hflag] at h
        rw [ih h, Bindings.get?_put]
        by_cases hx : s.variableName = x
        · subst hx
          have hv : b.get? s.variableName = none := by simpa using hb
          simp [hv, hflag]
        · simp [hx, Ne.symm hx]
      · rw [if_neg hflag] at h
        split_ifs at h
        rw [ih h]
        simp [hflag]

theorem exists_completeOptions (b : Bindings) (slots : List Slot)
    (h : ∀ s ∈ slots, s.argument.required = true → s.isFlag = false →
      (b.get? s.variableName).isSome) :
    ∃ b', completeOptions b slots = .ok b' := by
  induction slots generalizing b with
  | nil => exact ⟨b, rfl⟩
  | cons s slots ih =>
    have hrest := fun t ht => h t (List.mem_cons_of_mem s ht)
    rw [completeOptions]
    split_ifs with hb hflag hr
    · exact ih b hrest
    · refine ih _ fun t ht hr hf => ?_
      rw [Bindings.get?_put]
      split
      · rfl
      · exact hrest t ht hr hf
    · exact absurd (h s (by simp) hr (by simpa using hflag)) hb
    · exact ih b hrest

theorem dropSubcommands_append (subcommands words : List Text) :
    dropSubcommands subcommands (subcommands ++ words) = .ok words := by
  induction subcommands with
  | nil => simp [dropSubcommands]
  | cons s subcommands ih => simp [dropSubcommands, ih]

theorem checkGroups_eq_ok_iff {b : Bindings} {groups : List (Group × List Slot)} :
    checkGroups b groups = .ok () ↔ ∀ entry ∈ groups, entry.1.required = true →
      ∃ s ∈ entry.2, ∃ v, b.get? s.variableName = some v ∧ v.isSet = true := by
  induction groups with
  | nil => simp [checkGroups]
  | cons entry groups ih =>
    obtain ⟨g, slots⟩ := entry
    have hany : slots.any (fun s => ((b.get? s.variableName).map Value.isSet).getD false) = true ↔
        ∃ s ∈ slots, ∃ v, b.get? s.variableName = some v ∧ v.isSet = true := by
      rw [List.any_eq_true]
      refine exists_congr fun s => and_congr_right fun _ => ?_
      cases b.get? s.variableName <;> simp
    rw [checkGroups, List.forall_mem_cons, ← ih, ← hany]
    split_ifs with hunset
    · obtain ⟨hrequired, hnone⟩ := hunset
      refine ⟨by simp, fun h => ?_⟩
      rw [h.1 hrequired] at hnone
      exact absurd hnone (by decide)
    · refine ⟨fun h => ⟨fun hrequired => ?_, h⟩, fun h => h.2⟩
      by_contra hnone
      exact hunset ⟨hrequired, by rw [Bool.eq_false_iff.mpr hnone]; rfl⟩

end Matching

namespace Pattern

theorem mem_groupSlots {groups : List Group} (slots : List Slot)
    (h : slots.map Slot.argument = groups.flatMap Group.members) {entry : Group × List Slot}
    (he : entry ∈ groupSlots groups slots) :
    entry.1 ∈ groups ∧ entry.2.map Slot.argument = entry.1.members ∧ ∀ s ∈ entry.2, s ∈ slots := by
  induction groups generalizing slots with
  | nil => simp [groupSlots] at he
  | cons g groups ih =>
    rw [List.flatMap_cons] at h
    rcases List.mem_cons.mp he with rfl | he
    · refine ⟨by simp, ?_, fun s hs => List.mem_of_mem_take hs⟩
      rw [List.map_take, h, List.take_left]
    · obtain ⟨hg, hm, hsub⟩ := ih (slots.drop g.members.length)
        (by rw [List.map_drop, h, List.drop_left]) he
      exact ⟨by simp [hg], hm, fun s hs => List.mem_of_mem_drop (hsub s hs)⟩

theorem map_argument_slots (p : Pattern) : p.slots.map Slot.argument = p.allArguments :=
  Slot.map_argument_assign 0 0 _

theorem optionSlots_append_perm (p : Pattern) :
    (p.optionSlots ++ p.positionalSlots).Perm p.slots := by
  have := List.filter_append_perm (fun s : Slot => !s.argument.positional) p.slots
  simpa [optionSlots, positionalSlots] using this

theorem length_positionalWords {s : Slot} {v : Value} (hs : s.argument.positional = true)
    (hc : s.argument.quantifier ≠ .flag ∧ s.argument.quantifier ≠ .optional)
    (hd : ∀ n, s.argument.quantifier = .exactly n → n = 1 ∨ s.argument.delimiter = none)
    (hf : s.argument.Fits v) :
    s.least ≤ (s.argument.positionalWords v).length ∧
      ∀ m, s.most? = some m → (s.argument.positionalWords v).length ≤ m := by
  cases v with
  | flag given => simp [Argument.Fits, hs] at hf
  | text t =>
    obtain ⟨hnone, hq | hq⟩ := hf
    · simp [Slot.least, Slot.most?, Argument.positionalWords, hnone, hq, Quantifier.least,
        Quantifier.most?]
    · simp [hs] at hq
  | list values =>
    obtain ⟨-, hf⟩ := hf
    cases hdel : s.argument.delimiter with
    | none =>
      cases hq : s.argument.quantifier with
      | flag => exact absurd hq hc.1
      | optional => exact absurd hq hc.2
      | exactly count =>
        obtain ⟨-, rfl⟩ : count ≠ 1 ∧ values.length = count := by
          simpa [Argument.FitsList, hdel, hq] using hf
        simp [Slot.least, Slot.most?, Argument.positionalWords, hdel, hq, Quantifier.least,
          Quantifier.most?]
      | atLeastOne =>
        have hne : values ≠ [] := by simpa [Argument.FitsList, hdel, hq, hs] using hf
        have hpos : 1 ≤ values.length := List.length_pos_iff.mpr hne
        simpa [Slot.least, Slot.most?, Argument.positionalWords, hdel, hq, Quantifier.least,
          Quantifier.most?] using hpos
      | any =>
        simp [Slot.least, Slot.most?, Argument.positionalWords, hdel, hq, Quantifier.least,
          Quantifier.most?]
    | some d =>
      cases hq : s.argument.quantifier with
      | flag => exact absurd hq hc.1
      | optional => exact absurd hq hc.2
      | exactly count =>
        obtain rfl : count = 1 := by simpa [hdel] using hd count hq
        simp [Slot.least, Slot.most?, Argument.positionalWords, hdel, hq, Quantifier.least,
          Quantifier.most?]
      | atLeastOne => simp [Slot.least, Slot.most?, Argument.positionalWords, hdel, hq]
      | any => simp [Slot.least, Slot.most?, Argument.positionalWords, hdel, hq]

theorem mem_slots_of_optionSlots {p : Pattern} {s : Slot} (h : s ∈ p.optionSlots) : s ∈ p.slots :=
  (List.mem_filter.mp h).1

theorem mem_variableNames {p : Pattern} {s : Slot} (h : s ∈ p.slots) :
    s.variableName ∈ p.variableNames :=
  List.mem_map_of_mem h

/-- Assignments of all values, except those of flags that are not given, are completed to the
values themselves. -/
theorem completeOptions_written {p : Pattern} {values : Text → Option Value} (hf : p.Fits values)
    {as : List Assignment} (hd : (as.map Assignment.name).Nodup)
    (hval : ∀ a ∈ as, values a.name = some a.value ∧ a.name ∈ p.variableNames)
    (hall : ∀ s ∈ p.slots, ∀ v, values s.variableName = some v → v ≠ .flag false →
      ∃ a ∈ as, a.name = s.variableName) :
    ∃ b, completeOptions (Assignment.applyAll [] as) p.optionSlots = .ok b ∧
      ∀ x, b.get? x = if x ∈ p.variableNames then values x else none := by
  obtain ⟨hin, hout⟩ := Assignment.get?_applyAll [] hd fun _ _ => rfl
  have hflag : ∀ s ∈ p.slots, values s.variableName = some (.flag false) → s.isFlag = true :=
    fun s hs hv => (hf.fits s hs _ hv).2
  obtain ⟨b, hc⟩ := exists_completeOptions (Assignment.applyAll [] as) p.optionSlots (by
      intro s hs hr hnf
      have hs := mem_slots_of_optionSlots hs
      obtain ⟨v, hv⟩ := Option.ne_none_iff_exists'.mp (hf.given s hs (.inr (.inr hr)))
      obtain ⟨a, ha, hax⟩ := hall s hs v hv fun he => by simp [hflag s hs (he ▸ hv)] at hnf
      rw [← hax, hin a ha]
      rfl)
  refine ⟨b, hc, ?_⟩
  intro x
  rw [get?_of_completeOptions hc]
  by_cases hx : ∃ a ∈ as, a.name = x
  · obtain ⟨a, ha, rfl⟩ := hx
    rw [hin a ha, if_pos (hval a ha).2, (hval a ha).1]
    rfl
  · have hnone : (Assignment.applyAll [] as).get? x = none := hout x fun a ha he => hx ⟨a, ha, he⟩
    have hunset : ∀ s ∈ p.slots, s.variableName = x → ∀ v, values x = some v → v = .flag false := by
      rintro s hs rfl v hv
      by_contra hne
      obtain ⟨a, ha, he⟩ := hall s hs v hv hne
      exact hx ⟨a, ha, he⟩
    rw [hnone, Option.none_or]
    split
    · rename_i h
      obtain ⟨s, hs, hsf, rfl⟩ := h
      have hs := mem_slots_of_optionSlots hs
      obtain ⟨v, hv⟩ := Option.ne_none_iff_exists'.mp (hf.given s hs (.inr (.inl hsf)))
      rw [if_pos (mem_variableNames hs), hv, hunset s hs rfl v hv]
    · rename_i h
      split
      · rename_i hmem
        obtain ⟨s, hs, rfl⟩ := List.mem_map.mp hmem
        cases hv : values s.variableName with
        | none => rfl
        | some v =>
          obtain rfl := hunset s hs rfl v hv
          have hnp : s.argument.positional = false := (hf.fits s hs _ hv).1
          exact absurd ⟨s, List.mem_filter.mpr ⟨hs, by simp [hnp]⟩, hflag s hs hv, rfl⟩ h
      · rfl

theorem checkGroups_written {p : Pattern} {values : Text → Option Value} (hf : p.Fits values)
    {b : Bindings} (hb : ∀ x, b.get? x = if x ∈ p.variableNames then values x else none) :
    checkGroups b (groupSlots p.groups (p.slots.drop p.arguments.length)) = .ok () := by
  have hm : (p.slots.drop p.arguments.length).map Slot.argument =
      p.groups.flatMap Group.members := by
    rw [List.map_drop, map_argument_slots, allArguments, List.drop_left]
  apply checkGroups_eq_ok_iff.mpr
  intro entry he hr
  obtain ⟨hg, hmem, hsub⟩ := mem_groupSlots _ hm he
  obtain ⟨a, ha, x, hax, v, hv, hset⟩ := hf.grouped entry.1 hg hr
  rw [← hmem] at ha
  obtain ⟨s, hs, rfl⟩ := List.mem_map.mp ha
  have hsl : s ∈ p.slots := List.mem_of_mem_drop (hsub s hs)
  obtain rfl := Slot.variableName_of_mem_assign hsl hax
  exact ⟨s, hs, v, by rw [hb, if_pos (mem_variableNames hsl), hv], hset⟩

theorem Fits.positional {p : Pattern} {values : Text → Option Value} (hf : p.Fits values)
    {s : Slot} (hs : s ∈ p.positionalSlots) :
    s ∈ p.slots ∧ s.argument.positional = true ∧
      ∃ v, values s.variableName = some v ∧ s.argument.Fits v := by
  obtain ⟨hsl, hsp⟩ := List.mem_filter.mp hs
  obtain ⟨v, hv⟩ := Option.ne_none_iff_exists'.mp (hf.given s hsl (.inl hsp))
  exact ⟨hsl, hsp, v, hv, hf.fits s hsl v hv⟩

/-- Every positional gets back the words that were written for it. -/
theorem allocate_written {p : Pattern} (hwf : ∀ s ∈ p.slots, s.argument.WellFormed)
    (hcount : (p.positionalSlots.filter (·.IsVariable)).length ≤ 1)
    (hdelimited : ∀ s ∈ p.positionalSlots, ∀ n, s.argument.quantifier = .exactly n →
      n = 1 ∨ s.argument.delimiter = none)
    {values : Text → Option Value} (hfits : p.Fits values) :
    allocate p.positionalSlots (writtenPositionals values p.positionalSlots) =
      .ok (p.positionalSlots.map fun s =>
        (s, (values s.variableName).elim [] s.argument.positionalWords)) := by
  refine allocate_flatMap ?_ hcount
  intro s hs
  obtain ⟨hsl, hsp, v, hv, hf⟩ := hfits.positional hs
  simp only [hv, Option.elim_some]
  exact length_positionalWords hsp ((hwf s hsl).counted hsp) (hdelimited s hs) hf

theorem nodup_assigned {p : Pattern} (hvariables : p.variableNames.Nodup) {order : List Slot}
    (horder : order.Perm p.optionSlots) {as : List Assignment}
    (hsub : (as.map Assignment.name).Sublist (order.map Slot.variableName)) (value : Slot → Value) :
    ((as ++ p.positionalSlots.map fun s => Assignment.put s.variableName (value s)).map
      Assignment.name).Nodup := by
  have hsl : ((as ++ p.positionalSlots.map fun s => Assignment.put s.variableName (value s)).map
      Assignment.name).Sublist ((order ++ p.positionalSlots).map Slot.variableName) := by
    simpa [Function.comp_def, Assignment.name] using
      hsub.append_right (p.positionalSlots.map Slot.variableName)
  have hperm : ((order ++ p.positionalSlots).map Slot.variableName).Perm p.variableNames :=
    ((horder.append_right _).trans (optionSlots_append_perm p)).map _
  exact hsl.nodup (hperm.nodup_iff.mpr hvariables)

/-- Values that fit a pattern come back from the command line on which they were written. -/
theorem bind_written {t : Text} {p : Pattern} (hp : read t = .ok p)
    (hnames : p.optionNames.Nodup) (hvariables : p.variableNames.Nodup)
    (hcount : (p.positionalSlots.filter (·.IsVariable)).length ≤ 1)
    (hdelimited : ∀ s ∈ p.positionalSlots, ∀ n, s.argument.quantifier = .exactly n →
      n = 1 ∨ s.argument.delimiter = none)
    {values : Text → Option Value} (hfits : p.Fits values)
    (order : List Slot) (horder : order.Perm p.optionSlots)
    (name : Slot → Text) (hname : ∀ s ∈ order, name s ∈ s.argument.spellings) :
    ∃ b, p.bind (p.command :: p.subcommands ++ (writtenOptions values name order ++
        "--".toList :: writtenPositionals values p.positionalSlots)) = .ok b ∧
      ∀ x, b.get? x = if x ∈ p.variableNames then values x else none := by
  have hwf : ∀ s ∈ p.slots, s.argument.WellFormed := by
    intro s hs
    have : s.argument ∈ p.allArguments := map_argument_slots p ▸ List.mem_map_of_mem hs
    exact (wellFormed_of_read hp _ this).1
  have hwritable : ∀ s ∈ order, p.Writable values name s := by
    intro s hs
    have ho := horder.mem_iff.mp hs
    have hsl := mem_slots_of_optionSlots ho
    exact ⟨ho, hname s hs, (hwf s hsl).spelled _ (hname s hs), hfits.fits s hsl⟩
  let words := fun s : Slot => (values s.variableName).elim [] s.argument.positionalWords
  obtain ⟨as, hscan, hsub, hval, hall⟩ := scanOptions_written hnames hwritable
    (writtenPositionals values p.positionalSlots)
  have halloc := allocate_written hwf hcount hdelimited hfits
  let ps := p.positionalSlots.map fun s =>
    Assignment.put s.variableName (positionalValue s (words s))
  have hpsval : ∀ s ∈ p.positionalSlots,
      values s.variableName = some (positionalValue s (words s)) := by
    intro s hs
    obtain ⟨-, hsp, v, hv, hf⟩ := hfits.positional hs
    simp only [words, hv, Option.elim_some, positionalValue_positionalWords hsp hf]
  have hdistinct := nodup_assigned hvariables horder hsub fun s => positionalValue s (words s)
  have hvalues : ∀ a ∈ as ++ ps, values a.name = some a.value ∧ a.name ∈ p.variableNames := by
    intro a ha
    rcases List.mem_append.mp ha with ha | ha
    · obtain ⟨s, hs, he⟩ := List.mem_map.mp (hsub.subset (List.mem_map_of_mem ha))
      exact ⟨hval a ha, he ▸ mem_variableNames (mem_slots_of_optionSlots (horder.mem_iff.mp hs))⟩
    · obtain ⟨s, hs, rfl⟩ := List.mem_map.mp ha
      exact ⟨hpsval s hs, mem_variableNames (hfits.positional hs).1⟩
  have hassigned : ∀ s ∈ p.slots, ∀ v, values s.variableName = some v → v ≠ .flag false →
      ∃ a ∈ as ++ ps, a.name = s.variableName := by
    intro s hs v hv hne
    rcases List.mem_append.mp ((optionSlots_append_perm p).mem_iff.mpr hs) with ho | hpos
    · obtain ⟨a, ha, he⟩ := hall s (horder.mem_iff.mpr ho) v hv hne
      exact ⟨a, List.mem_append_left _ ha, he⟩
    · exact ⟨_, List.mem_append_right _ (List.mem_map_of_mem hpos), rfl⟩
  obtain ⟨b, hb, hget⟩ := completeOptions_written hfits hdistinct hvalues hassigned
  refine ⟨b, ?_, hget⟩
  simp only [words] at hb
  simp only [bind, List.cons_append, ne_eq, not_true_eq_false, ↓reduceIte, dropSubcommands_append,
    ok_bind, hscan, halloc, List.map_map, Function.comp_def, hb, checkGroups_written hfits hget,
    pure_eq_ok]

def packer : Pattern where
  command := "ar".toList
  subcommands := ["pack".toList]
  arguments := [
    ⟨some "SKIP".toList, .any, ["-s".toList, "--skip".toList], false, false, none⟩,
    ⟨some "WHEN".toList, .optional, ["--color".toList], false, false, none⟩,
    ⟨some "PARTS".toList, .atLeastOne, [], true, true, some ",".toList⟩,
    ⟨some "FILES".toList, .any, [], true, true, none⟩]
  groups := [⟨true, [⟨some "X".toList, .flag, ["-x".toList], false, false, none⟩,
    ⟨some "Y".toList, .flag, ["-y".toList], false, false, none⟩]⟩]

theorem read_packer : read
    "ar pack [SKIP*:-s --skip] [--color[=WHEN]] !([?:-x] [?:-y]) <PARTS...:,:> <FILES*>".toList =
      .ok packer := by
  cbv

def packed : Bindings := [
  ("SKIP".toList, .list ["a".toList, "-".toList]), ("WHEN".toList, .text "auto".toList),
  ("PARTS".toList, .list ["p".toList, "q".toList]), ("FILES".toList, .list ["-x".toList]),
  ("X".toList, .flag true), ("Y".toList, .flag false)]

theorem fits_packed : packer.Fits packed.get? where
  fits := by decide +kernel
  given := by decide
  grouped := by decide

/-- A list of values ends at the next option or at the two dashes. -/
theorem bind_written_packer :
    ∃ b, packer.bind (["ar", "pack", "--color=auto", "-x", "--skip", "a", "-", "--", "p,q",
        "-x"].map String.toList) = .ok b ∧
      ∀ x, b.get? x = if x ∈ packer.variableNames then packed.get? x else none := by
  have hq : ∀ s ∈ packer.positionalSlots,
      s.argument.quantifier = .atLeastOne ∨ s.argument.quantifier = .any := by decide
  refine bind_written read_packer (by decide) (by decide) (by decide) ?_ fits_packed
    [packer.optionSlots[1], packer.optionSlots[2], packer.optionSlots[3], packer.optionSlots[0]]
    (by decide) (fun s => s.argument.spellings.getLastD []) (by decide)
  intro s hs n hn
  rcases hq s hs with h | h <;> simp [h] at hn

end Pattern
end Countermand

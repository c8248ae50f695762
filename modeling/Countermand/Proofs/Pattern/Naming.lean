import Countermand.Proofs.Pattern.Phrases

/-! The names of options. A text means an option if it is one of its names, or the front of long
names that all belong to it. Behind a dash every letter is looked up as a name of its own; a
further dash among them then counts as the front of all long names. -/
namespace Countermand
open Results Matching

namespace Slot

theorem map_place_assign (options positionals : Nat) (as : List Argument) :
    ((assign options positionals as).filter (!·.argument.positional)).map place =
      List.range' options (as.countP (!·.positional)) := by
  induction as generalizing options positionals with
  | nil => rfl
  | cons a as ih => by_cases h : a.positional <;> simp [assign, h, ih, List.range'_succ]

end Slot

namespace Pattern

/-- The option that a name is declared for; of two options with one name the later counts. -/
def Names (p : Pattern) (name : Text) (s : Slot) : Prop := p.spellings.lookup name = some s

instance (p : Pattern) (name : Text) (s : Slot) : Decidable (p.Names name s) :=
  inferInstanceAs (Decidable (_ = _))

/-- A text that is no name itself, but the front of long names of one option only. -/
structure Abbreviates (p : Pattern) (short : Text) (s : Slot) : Prop where
  undeclared : short ∉ p.optionNames
  long : "--".toList <+: short
  front : ∃ full, p.Names full s ∧ short <+: full
  only : ∀ full t, p.Names full t → short <+: full → t = s

section
variable {p : Pattern} {name : Text} {s t : Slot}

theorem Names.declared (h : p.Names name s) :
    s ∈ p.optionSlots ∧ name ∈ s.argument.spellings := by
  have hmem := mem_of_lookup h
  rw [spellings, List.mem_reverse, List.mem_flatMap] at hmem
  obtain ⟨t, ht, hmem⟩ := hmem
  obtain ⟨known, hknown, he⟩ := List.mem_map.mp hmem
  obtain ⟨rfl, rfl⟩ := Prod.mk.inj he
  exact ⟨ht, hknown⟩

theorem names_iff (hd : p.optionNames.Nodup) :
    p.Names name s ↔ s ∈ p.optionSlots ∧ name ∈ s.argument.spellings :=
  ⟨Names.declared, fun h => lookup_spellings_of_mem hd h.1 h.2⟩

theorem lookup_eq_none_iff : p.spellings.lookup name = none ↔ name ∉ p.optionNames := by
  rw [List.lookup_eq_none_iff, optionNames, List.mem_flatMap]
  simp only [spellings, List.mem_reverse, List.mem_flatMap, List.mem_map]
  constructor
  · rintro h ⟨s, hs, hname⟩
    exact absurd (h (name, s) ⟨s, hs, name, hname, rfl⟩) (by simp)
  · rintro h _ ⟨s, hs, known, hknown, rfl⟩
    refine bne_iff_ne.mpr ?_
    rintro rfl
    exact h ⟨s, hs, hknown⟩

theorem eq_of_place_eq (hs : s ∈ p.optionSlots) (ht : t ∈ p.optionSlots)
    (h : s.place = t.place) : s = t := by
  have hplaces : (p.optionSlots.map Slot.place).Nodup := by
    rw [optionSlots, slots, Slot.map_place_assign]
    exact List.nodup_range'
  exact List.inj_on_of_nodup_map hplaces hs ht h

theorem mem_candidates_iff :
    s ∈ (p.spellings.filterMap fun (known, _) =>
        if name.isPrefixOf known then p.spellings.lookup known else none) ↔
      ∃ full, p.Names full s ∧ name <+: full := by
  constructor
  · intro h
    obtain ⟨⟨known, t⟩, -, hknown⟩ := List.mem_filterMap.mp h
    dsimp only at hknown
    split_ifs at hknown with hfront
    exact ⟨known, hknown, List.isPrefixOf_iff_prefix.mp hfront⟩
  · rintro ⟨full, hfull, hfront⟩
    refine List.mem_filterMap.mpr ⟨(full, s), mem_of_lookup hfull, ?_⟩
    dsimp only
    rwa [if_pos (List.isPrefixOf_iff_prefix.mpr hfront)]

theorem all_place_iff {others : List Slot}
    (hmem : ∀ u, u ∈ t :: others ↔ ∃ full, p.Names full u ∧ name <+: full) :
    others.all (·.place = t.place) = true ↔
      ∀ full u, p.Names full u → name <+: full → u = t := by
  obtain ⟨known, ht, -⟩ := (hmem t).mp List.mem_cons_self
  simp only [List.all_eq_true, decide_eq_true_eq]
  constructor
  · intro h full u hu hfront
    rcases List.mem_cons.mp ((hmem u).mpr ⟨full, hu, hfront⟩) with rfl | hothers
    · rfl
    · exact eq_of_place_eq hu.declared.1 ht.declared.1 (h u hothers)
  · intro h u hu
    obtain ⟨full, hfull, hfront⟩ := (hmem u).mp (List.mem_cons_of_mem t hu)
    rw [h full u hfull hfront]

/-- A text is looked up as a name, or else as an abbreviation. -/
theorem findOption_eq_ok_iff :
    findOption p.spellings name = .ok s ↔ p.Names name s ∨ p.Abbreviates name s := by
  cases hname : p.spellings.lookup name with
  | some t =>
    have hdeclared : name ∈ p.optionNames := by
      by_contra hnot
      simp [lookup_eq_none_iff.mpr hnot] at hname
    simp only [findOption, hname, Except.ok.injEq, Names, Option.some.injEq]
    exact ⟨.inl, fun h => h.resolve_right fun h => h.undeclared hdeclared⟩
  | none =>
    have hnot : ¬p.Names name s := by simp [Names, hname]
    rw [or_iff_right hnot, findOption, hname]
    dsimp only
    split_ifs with hlong
    swap
    · exact ⟨by simp, fun h => absurd (List.isPrefixOf_iff_prefix.mpr h.long) hlong⟩
    have hmem (u : Slot) := @mem_candidates_iff p name u
    split
    · rename_i hnil
      simp only [hnil, List.not_mem_nil, false_iff] at hmem
      exact ⟨by simp, fun h => absurd h.front (hmem s)⟩
    · rename_i t others hcons
      rw [hcons] at hmem
      obtain ⟨full, hfull, hfront⟩ := (hmem t).mp List.mem_cons_self
      split_ifs with hall
      · rw [all_place_iff hmem] at hall
        constructor
        · intro h
          obtain rfl := Except.ok.inj h
          exact ⟨lookup_eq_none_iff.mp hname, List.isPrefixOf_iff_prefix.mp hlong,
            ⟨full, hfull, hfront⟩, hall⟩
        · intro h
          rw [h.only full t hfull hfront]
      · rw [all_place_iff hmem] at hall
        refine ⟨by simp, fun h => absurd (fun known u hu hknown => ?_) hall⟩
        rw [h.only known u hu hknown, h.only full t hfull hfront]

end

/-- Letters that name flags, and perhaps one that names an option with a value, which then is what
is left of them. -/
def DeclaresLetters (p : Pattern) : Text → Prop
  | [] => True
  | c :: cs => ∃ s, p.Names ['-', c] s ∧ (s.isFlag = true → p.DeclaresLetters cs)

/-- The same, except that a dash among the letters may abbreviate all long names. -/
def UnderstandsLetters (p : Pattern) : Text → Prop
  | [] => True
  | c :: cs => ∃ s, (p.Names ['-', c] s ∨ c = '-' ∧ p.Abbreviates "--".toList s) ∧
      (s.isFlag = true → p.UnderstandsLetters cs)

section
variable {p : Pattern}

theorem findOption_letter_iff {c : Char} {s : Slot} :
    findOption p.spellings ['-', c] = .ok s ↔
      p.Names ['-', c] s ∨ c = '-' ∧ p.Abbreviates "--".toList s := by
  rw [findOption_eq_ok_iff]
  refine or_congr_right ⟨fun h => ?_, ?_⟩
  · obtain rfl : '-' = c := by simpa using h.long
    exact ⟨rfl, h⟩
  · rintro ⟨rfl, h⟩
    exact h

/-- A cluster asks for something exactly if its letters are understood. -/
theorem exists_ofLetters_iff {letters : Text} :
    (∃ r, Request.ofLetters p.spellings letters = .ok r) ↔ p.UnderstandsLetters letters := by
  induction letters with
  | nil => simp [Request.ofLetters, UnderstandsLetters]
  | cons c cs ih =>
    rw [UnderstandsLetters, Request.ofLetters]
    simp only [← findOption_letter_iff, ← ih]
    constructor
    · rintro ⟨r, hr⟩
      obtain ⟨s, hs, hr⟩ := bind_eq_ok.mp hr
      refine ⟨s, hs, fun hflag => ?_⟩
      rw [if_pos hflag] at hr
      obtain ⟨rest, hrest, -⟩ := bind_eq_ok.mp hr
      exact ⟨rest, hrest⟩
    · rintro ⟨s, hs, hcs⟩
      rw [hs, ok_bind]
      split_ifs with hflag
      · obtain ⟨rest, hrest⟩ := hcs hflag
        exact ⟨_, by rw [hrest]; rfl⟩
      all_goals exact ⟨_, rfl⟩

theorem UnderstandsLetters.declares {letters : Text} (h : p.UnderstandsLetters letters)
    (hd : '-' ∉ letters ∨ ∀ s, ¬p.Abbreviates "--".toList s) : p.DeclaresLetters letters := by
  induction letters with
  | nil => trivial
  | cons c cs ih =>
    obtain ⟨s, hname, hcs⟩ := h
    refine ⟨s, hname.resolve_right ?_, fun hflag => ih (hcs hflag) ?_⟩
    · rintro ⟨rfl, hs⟩
      exact hd.elim (· List.mem_cons_self) (· s hs)
    · exact hd.imp_left fun hnot hmem => hnot (List.mem_cons_of_mem c hmem)

/-- In a match the letters of every cluster are understood: the first names an option, and so does
each further one up to the first that takes a value, unless it is a dash where only one option has
long names. -/
theorem letters_of_bind {words : List Text} {b : Bindings} (hb : p.bind words = .ok b) :
    ∃ found ending,
      phrases p.spellings (words.drop (p.subcommands.length + 1)) = .ok (found, ending) ∧
      ∀ c cs values as, c ≠ '-' → .option ('-' :: c :: cs) values as ∈ found →
        (∃ s, p.Names ['-', c] s ∧ (s.isFlag = true → p.UnderstandsLetters cs)) ∧
        (('-' ∉ cs ∨ ∀ s, ¬p.Abbreviates "--".toList s) → p.DeclaresLetters (c :: cs)) := by
  obtain ⟨rest, assignments, slices, h⟩ := exists_steps_of_bind hb
  obtain ⟨left, hscan, -⟩ := h.options
  obtain ⟨⟨found, ending⟩, hfound, -⟩ :=
    bind_eq_ok.mp ((scanOptions_eq_phrases rest).symm.trans hscan)
  refine ⟨found, ending, ?_, fun c cs values as hc hmem => ?_⟩
  · rw [h.command, List.drop_succ_cons, List.drop_left, hfound]
  obtain ⟨r, hr⟩ := (isPhrased_of_phrases hfound).exists_ofWord hmem
  have hletters : p.UnderstandsLetters (c :: cs) :=
    exists_ofLetters_iff.mp ⟨r, (ofWord_letters hc cs).symm.trans hr⟩
  constructor
  · obtain ⟨s, hs, hcs⟩ := hletters
    exact ⟨s, hs.resolve_right fun h => hc h.1, hcs⟩
  · intro hd
    refine hletters.declares (hd.imp_left fun hnot hmem => ?_)
    exact (List.mem_cons.mp hmem).elim (fun he => hc he.symm) hnot

end

def remover : Pattern where
  command := "rm".toList
  subcommands := []
  arguments := [⟨some "FORCE".toList, .flag, ["-f".toList, "--force".toList], false, false, none⟩]
  groups := []

theorem read_remover : read "rm [?:-f --force]".toList = .ok remover := by
  cbv

theorem letters_of_bind_remover :
    remover.bind ["rm".toList, ['-', 'f', '-']] = .ok [("FORCE".toList, .flag true)] ∧
      ∃ s, remover.Names ['-', 'f'] s ∧ (s.isFlag = true → remover.UnderstandsLetters ['-']) := by
  have hb : remover.bind ["rm".toList, ['-', 'f', '-']] = .ok [("FORCE".toList, .flag true)] := by
    cbv
  have hphrases : phrases remover.spellings [['-', 'f', '-']] = .ok ([.option ['-', 'f', '-'] []
      [.put "FORCE".toList (.flag true), .put "FORCE".toList (.flag true)]], []) := by
    cbv
  obtain ⟨found, ending, hfound, h⟩ := letters_of_bind hb
  obtain ⟨rfl, rfl⟩ := Prod.mk.inj (Except.ok.inj (hphrases.symm.trans hfound))
  exact ⟨hb, (h 'f' ['-'] _ _ (by decide) List.mem_cons_self).1⟩

/-- The dash behind the letter is the option `-f` once more, although no `--` is declared. -/
theorem dash_among_letters :
    read "rm [?:-f --force]".toList = .ok remover ∧
      remover.bind ["rm".toList, ['-', 'f', '-']] = .ok [("FORCE".toList, .flag true)] ∧
      phrases remover.spellings [['-', 'f', '-']] = .ok ([.option ['-', 'f', '-'] []
        [.put "FORCE".toList (.flag true), .put "FORCE".toList (.flag true)]], []) ∧
      ¬remover.DeclaresLetters ['f', '-'] := by
  refine ⟨read_remover, by cbv, by cbv, ?_⟩
  rintro ⟨s, hs, hcs⟩
  have hflag : s.isFlag = true := by
    obtain rfl : remover.optionSlots[0] = s := Option.some.inj hs
    rfl
  obtain ⟨t, ht, -⟩ := hcs hflag
  exact absurd (Option.isSome_iff_exists.mpr ⟨t, ht⟩) (by decide)

end Pattern
end Countermand

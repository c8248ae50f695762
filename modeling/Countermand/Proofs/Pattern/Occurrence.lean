import Countermand.Proofs.Pattern.Shape

/-! The options that occur in a command line: the option words that are no values of earlier
options and stand before two dashes, and the options that each of them names. A scan makes one
assignment for each, which gives the variable of the option a value of its shape. -/
namespace Countermand
open Results

namespace Matching

/-- The options that letters name; a letter that takes a value is the last one. -/
def lettered (spellings : List (Text × Slot)) : Text → List Slot
  | [] => []
  | c :: cs =>
    match findOption spellings ['-', c] with
    | .ok s => s :: if s.isFlag then lettered spellings cs else []
    | .error _ => []

/-- The options that a word names: one by a long name, which ends at an equals sign, or those of
the letters behind a dash. -/
def named (spellings : List (Text × Slot)) (word : Text) : List Slot :=
  if "--".toList.isPrefixOf word then
    (findOption spellings (((Text.cutAt ['='] word).map Prod.fst).getD word)).toOption.toList
  else lettered spellings word.tail

inductive Occurs (spellings : List (Text × Slot)) (s : Slot) : List Text → Prop
  | here {word : Text} {following : List Text} : isOptionLike word = true →
      word ≠ "--".toList → s ∈ named spellings word → Occurs spellings s (word :: following)
  | skip {word : Text} {following : List Text} : isOptionLike word = false →
      Occurs spellings s following → Occurs spellings s (word :: following)
  | later {word : Text} {following : List Text} {assignments : List Assignment} {used : Nat} :
      isOptionLike word = true → word ≠ "--".toList →
      optionWord spellings word following = .ok (assignments, used) →
      Occurs spellings s (following.drop used) → Occurs spellings s (word :: following)

variable {spellings : List (Text × Slot)}

theorem mem_of_lookup {name : Text} {s : Slot} (h : spellings.lookup name = some s) :
    (name, s) ∈ spellings := by
  obtain ⟨before, after, rfl, -⟩ := List.lookup_eq_some_iff.mp h
  simp

theorem mem_of_findOption {name : Text} {s : Slot} (h : findOption spellings name = .ok s) :
    ∃ known, (known, s) ∈ spellings := by
  unfold findOption at h
  split at h
  · rename_i t hlookup
    obtain rfl := Except.ok.inj h
    exact ⟨name, mem_of_lookup hlookup⟩
  · split_ifs at h
    split at h
    · simp at h
    · rename_i t others hcandidates
      split_ifs at h
      obtain rfl := Except.ok.inj h
      have hmem : t ∈ t :: others := by simp
      rw [← hcandidates] at hmem
      obtain ⟨⟨known, u⟩, -, hknown⟩ := List.mem_filterMap.mp hmem
      dsimp only at hknown
      split_ifs at hknown
      exact ⟨known, mem_of_lookup hknown⟩

theorem mem_of_lettered {letters : Text} {s : Slot} (h : s ∈ lettered spellings letters) :
    ∃ known, (known, s) ∈ spellings := by
  induction letters with
  | nil => simp [lettered] at h
  | cons c cs ih =>
    rw [lettered] at h
    split at h
    · rename_i t hfind
      rcases List.mem_cons.mp h with rfl | h
      · exact mem_of_findOption hfind
      · split_ifs at h with hflag
        · exact ih h
        · simp at h
    · simp at h

theorem mem_of_named {word : Text} {s : Slot} (h : s ∈ named spellings word) :
    ∃ known, (known, s) ∈ spellings := by
  rw [named] at h
  split_ifs at h
  · cases hfind : findOption spellings (((Text.cutAt ['='] word).map Prod.fst).getD word) with
    | error e => simp [hfind, Except.toOption] at h
    | ok t =>
      obtain rfl : s = t := by simpa [hfind, Except.toOption] using h
      exact mem_of_findOption hfind
  · exact mem_of_lettered h

theorem mem_of_occurs {words : List Text} {s : Slot} (h : Occurs spellings s words) :
    ∃ known, (known, s) ∈ spellings := by
  induction h with
  | here _ _ hnamed => exact mem_of_named hnamed
  | skip _ _ ih => exact ih
  | later _ _ _ _ ih => exact ih

structure IsOption (s : Slot) : Prop where
  option : s.argument.positional = false
  delimited : ∀ d, s.argument.delimiter = some d → d ≠ []

theorem writes_flag {s : Slot} (hs : s.argument.positional = false) (hflag : s.isFlag = true) :
    s.Writes (.put s.variableName (.flag true)) := by
  refine Slot.writes_put ?_ (by simp)
  rw [Argument.HasShape, if_pos ⟨hs, hflag⟩]
  exact ⟨true, rfl⟩

/-- An option that counts its values gets as many, the attached one among them. -/
theorem length_taken {attached : Option Text} {following : List Text} {count : Nat}
    (hpos : count ≠ 0) (hfew : ¬following.length < count - attached.toList.length) :
    (attached.toList ++ following.take (count - attached.toList.length)).length = count := by
  rw [List.length_append, List.length_take]
  have hone : attached.toList.length ≤ 1 := by cases attached <;> simp
  omega

/-- An occurrence of an option gives it a value of its shape. -/
theorem writes_of_occurrence {s : Slot} (hs : IsOption s) {attached : Option Text}
    {following : List Text} {a : Assignment} {used : Nat}
    (h : occurrence s attached following = .ok (a, used)) : s.Writes a := by
  obtain ⟨hoption, hdelimited⟩ := hs
  unfold occurrence at h
  dsimp only at h
  split_ifs at h with hflag hattached
  · obtain ⟨rfl, -⟩ := Prod.mk.inj (Except.ok.inj h)
    exact writes_flag hoption hflag
  have hvalue : ¬(s.argument.positional = false ∧ s.argument.quantifier.isFlag = true) :=
    fun hc => hflag hc.2
  have hitems {d : Text} (hd : s.argument.delimiter = some d) (value : Text) :
      s.argument.HasShape (.list (Text.items d value)) :=
    Argument.hasShape_delimited hvalue hd fun _ => Text.of_mem_items (hdelimited d hd)
  split at h
  · rename_i hq
    split at h <;> obtain ⟨rfl, -⟩ := Prod.mk.inj (Except.ok.inj h) <;>
      refine Slot.writes_put ?_ (by simp)
    · cases hd : s.argument.delimiter with
      | some d => exact Argument.hasShape_delimited hvalue hd (by simp)
      | none =>
        rw [Argument.HasShape, if_neg hvalue, hd, hq]
        exact .inr rfl
    · rename_i hd
      rw [Argument.HasShape, if_neg hvalue, hd, hq]
      exact .inl ⟨_, rfl⟩
    · rename_i hd
      exact hitems hd _
  · rename_i hd _
    have hone : s.argument.Accumulates := .inl (by simp [hd])
    split at h
    · obtain ⟨rfl, -⟩ := Prod.mk.inj (Except.ok.inj h)
      exact Slot.writes_extend (hitems hd _) hone
    · obtain ⟨rfl, -⟩ := Prod.mk.inj (Except.ok.inj h)
      exact Slot.writes_extend (hitems hd _) hone
    · simp at h
  · rename_i count hq hd
    split_ifs at h with hfew
    have hpos : count ≠ 0 := by
      rintro rfl
      exact hflag (by simp [Slot.isFlag, Quantifier.isFlag, hq])
    obtain ⟨htext, hlist⟩ := Argument.hasShape_counted hvalue hd hq (length_taken hpos hfew)
    split at h <;> obtain ⟨rfl, -⟩ := Prod.mk.inj (Except.ok.inj h) <;>
      refine Slot.writes_put ?_ (by simp)
    · rename_i value hvalues
      exact htext value hvalues
    · rename_i hmany
      exact hlist hmany
  · rename_i hd hoptional hcounted
    split_ifs at h with hempty
    obtain ⟨rfl, -⟩ := Prod.mk.inj (Except.ok.inj h)
    cases hq : s.argument.quantifier with
    | flag => exact absurd (by simp [Slot.isFlag, Quantifier.isFlag, hq]) hflag
    | optional => exact absurd hq hoptional
    | exactly count => exact absurd hq (hcounted count)
    | atLeastOne =>
      refine Slot.writes_extend ?_ (.inr (.inl hq))
      rw [Argument.HasShape, if_neg hvalue, hd, hq]
      exact ⟨_, rfl, fun he => hempty ⟨hq, he⟩⟩
    | any =>
      refine Slot.writes_extend ?_ (.inr (.inr hq))
      rw [Argument.HasShape, if_neg hvalue, hd, hq]
      exact ⟨_, rfl⟩

theorem writes_of_single {s : Slot} (hs : IsOption s) {attached : Option Text}
    {following : List Text} {as : List Assignment} {used : Nat}
    (h : (occurrence s attached following >>= fun (a, used) => pure ([a], used)) =
      .ok (as, used)) : List.Forall₂ Slot.Writes [s] as := by
  obtain ⟨⟨a, taken⟩, ha, he⟩ := bind_eq_ok.mp h
  obtain ⟨rfl, -⟩ := Prod.mk.inj (Except.ok.inj he)
  exact .cons (writes_of_occurrence hs ha) .nil

section
variable (hreg : ∀ entry ∈ spellings, IsOption entry.2)
include hreg

theorem isOption_of_findOption {name : Text} {s : Slot} (h : findOption spellings name = .ok s) :
    IsOption s := by
  obtain ⟨known, hmem⟩ := mem_of_findOption h
  exact hreg _ hmem

theorem writes_of_cluster {letters : Text} {following : List Text} {as : List Assignment}
    {used : Nat} (h : cluster spellings letters following = .ok (as, used)) :
    List.Forall₂ Slot.Writes (lettered spellings letters) as := by
  induction letters generalizing as used with
  | nil =>
    obtain ⟨rfl, -⟩ := Prod.mk.inj (Except.ok.inj h)
    exact .nil
  | cons c cs ih =>
    obtain ⟨s, hfind, h⟩ := bind_eq_ok.mp h
    have hs := isOption_of_findOption hreg hfind
    simp only [lettered, hfind]
    by_cases hflag : s.isFlag
    · rw [if_pos hflag] at h ⊢
      obtain ⟨⟨more, rest⟩, hmore, he⟩ := bind_eq_ok.mp h
      obtain ⟨rfl, -⟩ := Prod.mk.inj (Except.ok.inj he)
      exact .cons (writes_flag hs.option hflag) (ih hmore)
    · rw [if_neg hflag] at h ⊢
      exact writes_of_single hs h

theorem writes_of_optionWord {word : Text} (hword : isOptionLike word = true)
    {following : List Text} {as : List Assignment} {used : Nat}
    (h : optionWord spellings word following = .ok (as, used)) :
    List.Forall₂ Slot.Writes (named spellings word) as := by
  unfold optionWord at h
  rw [named]
  by_cases hlong : "--".toList.isPrefixOf word
  · rw [if_pos hlong] at h ⊢
    cases hcut : Text.cutAt ['='] word with
    | none =>
      simp only [hcut] at h
      obtain ⟨s, hfind, h⟩ := bind_eq_ok.mp h
      simpa [hfind, Except.toOption] using writes_of_single (isOption_of_findOption hreg hfind) h
    | some cut =>
      simp only [hcut] at h
      obtain ⟨s, hfind, h⟩ := bind_eq_ok.mp h
      simpa [hfind, Except.toOption] using writes_of_single (isOption_of_findOption hreg hfind) h
  · rw [if_neg hlong] at h ⊢
    unfold isOptionLike at hword
    split at hword
    · rename_i c tail
      obtain ⟨s, hfind, h⟩ := bind_eq_ok.mp h
      have hfind : findOption spellings ['-', c] = .ok s := hfind
      have hs := isOption_of_findOption hreg hfind
      simp only [List.tail_cons, lettered, hfind]
      cases tail with
      | nil => simpa [lettered] using writes_of_single hs h
      | cons d ds =>
        by_cases hflag : s.isFlag
        · simp only [List.drop_succ_cons, List.drop_zero, if_pos hflag] at h ⊢
          obtain ⟨⟨more, rest⟩, hmore, he⟩ := bind_eq_ok.mp h
          obtain ⟨rfl, -⟩ := Prod.mk.inj (Except.ok.inj he)
          exact .cons (writes_flag hs.option hflag) (writes_of_cluster hreg hmore)
        · simp only [List.drop_succ_cons, List.drop_zero, if_neg hflag] at h ⊢
          exact writes_of_single hs h
    · simp at hword

/-- A scan makes one assignment for each option that occurs, and no others. -/
theorem exists_written_of_scanOptions {words left : List Text} {as : List Assignment}
    (h : scanOptions spellings words = .ok (as, left)) :
    ∃ written, List.Forall₂ Slot.Writes written as ∧
      ∀ s, s ∈ written ↔ Occurs spellings s words := by
  fun_induction scanOptions spellings words generalizing as left with
  | case1 =>
    obtain ⟨rfl, -⟩ := Prod.mk.inj (Except.ok.inj h)
    refine ⟨[], .nil, fun s => ⟨by simp, fun hoccurs => ?_⟩⟩
    cases hoccurs
  | case2 following =>
    obtain ⟨rfl, -⟩ := Prod.mk.inj (Except.ok.inj h)
    refine ⟨[], .nil, fun s => ⟨by simp, fun hoccurs => ?_⟩⟩
    cases hoccurs with
    | here _ hdashes _ => exact absurd rfl hdashes
    | skip hlike _ => simp [isOptionLike] at hlike
    | later _ hdashes _ _ => exact absurd rfl hdashes
  | case3 word following hdashes hlike ih =>
    obtain ⟨⟨front, used⟩, hfront, h⟩ := bind_eq_ok.mp h
    obtain ⟨⟨more, rest⟩, hmore, he⟩ := bind_eq_ok.mp h
    obtain ⟨rfl, -⟩ := Prod.mk.inj (Except.ok.inj he)
    obtain ⟨written, hwrites, hoccurs⟩ := ih _ hmore
    refine ⟨named spellings word ++ written,
      List.rel_append (writes_of_optionWord hreg hlike hfront) hwrites, fun s => ?_⟩
    rw [List.mem_append, hoccurs]
    constructor
    · rintro (hnamed | hlater)
      · exact .here hlike hdashes hnamed
      · exact .later hlike hdashes hfront hlater
    · intro hs
      cases hs with
      | here _ _ hnamed => exact .inl hnamed
      | skip hpositional _ => simp [hlike] at hpositional
      | later _ _ hword hlater =>
        obtain ⟨-, rfl⟩ := Prod.mk.inj (Except.ok.inj (hfront.symm.trans hword))
        exact .inr hlater
  | case4 word following hdashes hlike ih =>
    obtain ⟨⟨more, rest⟩, hmore, he⟩ := bind_eq_ok.mp h
    obtain ⟨rfl, -⟩ := Prod.mk.inj (Except.ok.inj he)
    obtain ⟨written, hwrites, hoccurs⟩ := ih hmore
    have hpositional : isOptionLike word = false := by simpa using hlike
    refine ⟨written, hwrites, fun s => (hoccurs s).trans ⟨.skip hpositional, fun hs => ?_⟩⟩
    cases hs with
    | here hoption _ _ => exact absurd hoption hlike
    | skip _ hlater => exact hlater
    | later hoption _ _ _ => exact absurd hoption hlike

end

end Matching
end Countermand

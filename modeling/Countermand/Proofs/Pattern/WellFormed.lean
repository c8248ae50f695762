import Countermand.Pattern.Matching
import Countermand.Pattern.Reading
import Countermand.Proofs.Results
import Countermand.Proofs.Text.Splitting

/-! What can be said of every argument of a pattern that was read: it has a variable, and it is an
option under valid spellings or a positional without any. -/
namespace Countermand
open Results

@[simp] theorem PatternFault.on_ne_ok {α : Type} {fault : PatternFault} {t : Text} {a : α} :
    fault.on t = .ok a ↔ False := by
  simp [PatternFault.on]

namespace Argument

theorem spelling_cases {name : Text} (h : isSpelling name = true) :
    (∃ c, c.isAlphanum = true ∧ name = ['-', c]) ∨
      ∃ long, name = '-' :: '-' :: long ∧ long ≠ [] ∧
        ∀ c ∈ long, c.isAlphanum = true ∨ c = '-' := by
  unfold isSpelling at h
  split at h
  · rename_i long
    refine .inr ⟨long, rfl, ?_, ?_⟩
    · rintro rfl
      simp [Text.splitOn, Text.splitWhere] at h
    · intro c hc
      split at h
      · simp at h
      · rename_i first words hs
        simp only [Bool.and_eq_true, List.all_eq_true, Text.isAlphanumeric] at h
        rcases Text.mem_splitWhere (· == '-') hc with hd | ⟨piece, hp, hc⟩
        · exact .inr (eq_of_beq hd)
        · rw [← Text.splitOn, hs] at hp
          rcases List.mem_cons.mp hp with rfl | hp
          · exact .inl (h.1.2 c hc)
          · exact .inl ((h.2 piece hp).2 c hc)
  · exact .inl ⟨_, h, rfl⟩
  · simp at h

theorem spelled_of_readSpellings {found spec : Option Specification} {ts names : List Text}
    (h : readSpellings found ts = .ok (names, spec)) : ∀ name ∈ names, isSpelling name = true := by
  induction ts generalizing found names spec with
  | nil =>
    obtain ⟨rfl, -⟩ : [] = names ∧ found = spec := by simpa [readSpellings] using h
    simp
  | cons token ts ih =>
    simp only [readSpellings, bind_eq_ok] at h
    obtain ⟨⟨name, attached⟩, -, h⟩ := h
    by_cases hn : isSpelling name
    · by_cases hc : attached.isSome && found.isSome
      · simp [hn, hc] at h
      · simp only [hn, hc, Bool.not_true, Bool.false_eq_true, ↓reduceIte, bind_eq_ok] at h
        obtain ⟨⟨rest, final⟩, hr, he⟩ := h
        obtain ⟨rfl, -⟩ : name :: rest = names ∧ final = spec := by simpa using he
        intro x hx
        rcases List.mem_cons.mp hx with rfl | hx
        · exact hn
        · exact ih hr x hx
    · simp [hn] at h

theorem exists_derivedName {spellings : List Text} (h : spellings ≠ []) :
    ∃ name, derivedName spellings = some name := by
  cases spellings with
  | nil => exact absurd rfl h
  | cons t ts =>
    have hl : ∃ best, longest? (t :: ts) = some best := by
      simp only [longest?]
      cases longest? ts with
      | none => exact ⟨t, rfl⟩
      | some best => by_cases hb : best.length ≤ t.length <;> simp [hb]
    obtain ⟨best, hb⟩ := hl
    simp [derivedName, hb]

theorem spec_of_readSpellings_nil {found spec : Option Specification} {ts : List Text}
    (h : readSpellings found ts = .ok ([], spec)) : spec = found := by
  cases ts with
  | nil => simpa [readSpellings, eq_comm] using h
  | cons token ts =>
    simp only [readSpellings, bind_eq_ok] at h
    obtain ⟨⟨name, attached⟩, -, h⟩ := h
    dsimp only at h
    split at h
    · simp at h
    · split at h
      · simp at h
      · obtain ⟨⟨rest, final⟩, -, he⟩ := bind_eq_ok.mp h
        simp at he

/-- A value that can only be attached is not asked for by the quantifiers of a specification. -/
theorem quantifier_ne_optional {t rest : Text} {spec : Specification}
    (h : Specification.read t = .ok (spec, rest)) : spec.quantifier ≠ some .optional := by
  obtain ⟨⟨q, after⟩, hq, he⟩ := bind_eq_ok.mp h
  obtain ⟨rfl, -⟩ : ⟨_, q⟩ = spec ∧ after = rest := by simpa using he
  have hc : ∀ {t count rest : Text} {r : Option Quantifier × Text},
      Specification.readExactly t count rest = .ok r → r.1 ≠ some .optional := by
    intro t count rest r hr
    unfold Specification.readExactly at hr
    split at hr
    · obtain rfl := Except.ok.inj hr
      simp
    · simp at hr
  unfold Specification.readQuantifier at hq
  split at hq <;> try (obtain ⟨rfl, -⟩ := Prod.mk.inj (Except.ok.inj hq); simp)
  · split at hq
    · exact hc hq
    · simp at hq
  · split at hq
    · exact hc hq
    · obtain ⟨rfl, -⟩ := Prod.mk.inj (Except.ok.inj hq)
      simp

theorem head_quantifier_ne_optional {content body names : Text} {head : Option Specification}
    (h : readHead content body = .ok (head, names)) :
    head.bind Specification.quantifier ≠ some .optional := by
  obtain ⟨⟨spec, rest⟩, hs, h⟩ := bind_eq_ok.mp h
  have hq := quantifier_ne_optional hs
  dsimp only at h
  split at h
  · obtain ⟨rfl, -⟩ := Prod.mk.inj (Except.ok.inj h)
    exact hq
  · split at h
    · obtain ⟨rfl, -⟩ := Prod.mk.inj (Except.ok.inj h)
      simp
    · split at h
      · obtain ⟨rfl, -⟩ := Prod.mk.inj (Except.ok.inj h)
        exact hq
      · simp at h

/-- The steps in which an argument is read: its delimiter is taken off, then a specification in
front and the spellings with another one. -/
structure Reading (content : Text) (a : Argument) (front names : Text)
    (given spec : Option Specification) : Prop where
  delimiter : splitDelimiter content.tail.dropLast = .ok (front, a.delimiter)
  head : readHead content front = .ok (given, names)
  spellings : readSpellings given (Text.fields separatesSpellings names) = .ok (a.spellings, spec)
  variableName : a.variableName = (spec.bind Specification.identifier <|> derivedName a.spellings)
  quantifier : a.quantifier = (spec.bind Specification.quantifier).getD (.exactly 1)
  positional_iff : a.positional = true ↔ a.spellings = []
  necessary : a.positional = true → a.required = true ∧ a.quantifier ≠ .flag

theorem exists_reading {t : Text} {a : Argument} (h : read t = .ok a) :
    ∃ front names given spec, Reading (Text.trim t) a front names given spec := by
  obtain ⟨required, -, h⟩ := bind_eq_ok.mp h
  obtain ⟨⟨front, delimiter⟩, hdelimiter, h⟩ := bind_eq_ok.mp h
  obtain ⟨⟨given, names⟩, hgiven, h⟩ := bind_eq_ok.mp h
  obtain ⟨⟨spellings, spec⟩, hspellings, h⟩ := bind_eq_ok.mp h
  dsimp only at h
  split_ifs at h with hrequired hflag
  · simp at h
  · simp at h
  obtain rfl := Except.ok.inj h
  refine ⟨front, names, given, spec, hdelimiter, hgiven, hspellings, rfl, rfl, List.isEmpty_iff,
    fun hp => ?_⟩
  obtain rfl := List.isEmpty_iff.mp hp
  exact ⟨by simpa using hrequired, by simpa using hflag⟩

theorem Reading.spec_eq {content front names : Text} {a : Argument}
    {given spec : Option Specification} (h : Reading content a front names given spec)
    (hp : a.positional = true) : spec = given := by
  have hspellings := h.spellings
  rw [h.positional_iff.mp hp] at hspellings
  exact spec_of_readSpellings_nil hspellings

/-- What holds of an argument that was read; the pattern around it names its positionals. -/
structure WellFormed (a : Argument) : Prop where
  spelled : ∀ name ∈ a.spellings, isSpelling name = true
  positional_iff : a.positional = true ↔ a.spellings = []
  named : a.positional = false → ∃ name, a.variableName = some name
  counted : a.positional = true → a.quantifier ≠ .flag ∧ a.quantifier ≠ .optional

theorem wellFormed_of_read {t : Text} {a : Argument} (h : read t = .ok a) : a.WellFormed := by
  obtain ⟨front, names, given, spec, hr⟩ := exists_reading h
  refine ⟨spelled_of_readSpellings hr.spellings, hr.positional_iff, fun hp => ?_,
    fun hp => ⟨(hr.necessary hp).2, ?_⟩⟩
  · have hne : a.spellings ≠ [] := fun hnil => by simp [hr.positional_iff.mpr hnil] at hp
    obtain ⟨name, hd⟩ := exists_derivedName hne
    rw [hr.variableName, hd]
    cases spec.bind Specification.identifier with
    | none => exact ⟨name, rfl⟩
    | some x => exact ⟨x, rfl⟩
  · have hq := head_quantifier_ne_optional hr.head
    rw [hr.quantifier, hr.spec_eq hp]
    cases hc : given.bind Specification.quantifier with
    | none => simp
    | some q => simpa [hc] using hq

end Argument

namespace Group

theorem wellFormed_of_readMembers {t : Text} {members : List Argument}
    (h : readMembers t = .ok members) :
    ∀ a ∈ members, a.WellFormed ∧ a.positional = false := by
  fun_induction readMembers t generalizing members with
  | case1 =>
    obtain rfl := Except.ok.inj h
    simp
  | case2 => simp at h
  | case3 t c cs ht hc run rest he ih =>
    obtain ⟨member, hm, h⟩ := bind_eq_ok.mp h
    split at h
    · simp at h
    · rename_i hp
      split at h
      · simp at h
      · exact forall_of_bind_cons h ⟨Argument.wellFormed_of_read hm, by simpa using hp⟩
          fun _ hm => ih hm
  | case4 => simp at h

theorem wellFormed_of_read {t : Text} {g : Group} (h : read t = .ok g) :
    ∀ a ∈ g.members, a.WellFormed ∧ a.positional = false := by
  simp only [read] at h
  split at h
  · simp at h
  · obtain ⟨members, hm, h⟩ := bind_eq_ok.mp h
    split at h
    · simp at h
    · obtain rfl := Except.ok.inj h
      exact wellFormed_of_readMembers hm

end Group

namespace Pattern

def allArguments (p : Pattern) : List Argument := p.arguments ++ p.groups.flatMap Group.members

namespace Part
variable {parts : List Part}

theorem word_mem {w : Text} (h : w ∈ parts.filterMap word?) : .word w ∈ parts := by
  obtain ⟨part, hpart, he⟩ := List.mem_filterMap.mp h
  cases part with
  | word v =>
    obtain rfl : v = w := Option.some.inj he
    exact hpart
  | argument _ | group _ => simp [word?] at he

theorem argument_mem {a : Argument} (h : a ∈ parts.filterMap argument?) : .argument a ∈ parts := by
  obtain ⟨part, hpart, he⟩ := List.mem_filterMap.mp h
  cases part with
  | argument b =>
    obtain rfl : b = a := Option.some.inj he
    exact hpart
  | word _ | group _ => simp [argument?] at he

theorem group_mem {g : Group} (h : g ∈ parts.filterMap group?) : .group g ∈ parts := by
  obtain ⟨part, hpart, he⟩ := List.mem_filterMap.mp h
  cases part with
  | group k =>
    obtain rfl : k = g := Option.some.inj he
    exact hpart
  | word _ | argument _ => simp [group?] at he

end Part

def Part.WellFormed : Part → Prop
  | .word _ => True
  | .argument a => a.WellFormed
  | .group g => ∀ a ∈ g.members, a.WellFormed ∧ a.positional = false

theorem wellFormed_of_readParts {ended : Bool} {t : Text} {parts : List Part}
    (h : readParts ended t = .ok parts) : ∀ part ∈ parts, part.WellFormed := by
  fun_induction readParts ended t generalizing parts with
  | case1 =>
    obtain rfl := Except.ok.inj h
    simp
  | case2 | case4 | case6 | case8 | case9 => simp at h
  | case3 ended t c cs ht hc run rest he ih =>
    obtain ⟨a, ha, h⟩ := bind_eq_ok.mp h
    exact forall_of_bind_cons h (Argument.wellFormed_of_read ha) fun _ hr => ih hr
  | case5 ended t cs run rest ht hc he ih =>
    obtain ⟨g, hg, h⟩ := bind_eq_ok.mp h
    exact forall_of_bind_cons h (Group.wellFormed_of_read hg) fun _ hr => ih hr
  | case7 ended t c cs ht hc hp hn run rest he ih =>
    obtain ⟨g, hg, h⟩ := bind_eq_ok.mp h
    exact forall_of_bind_cons h (Group.wellFormed_of_read hg) fun _ hr => ih hr
  | case10 =>
    rename_i ih
    exact forall_of_bind_cons h trivial fun _ hr => ih hr

theorem named_of_nameOrdinals {place : Nat} {as : List Argument} (h : ∀ a ∈ as, a.WellFormed) :
    ∀ a ∈ nameOrdinals place as, a.WellFormed ∧ ∃ name, a.variableName = some name := by
  induction as generalizing place with
  | nil => simp [nameOrdinals]
  | cons a as ih =>
    have ha := h a (by simp)
    have has := fun b hb => h b (List.mem_cons_of_mem a hb)
    by_cases hp : a.positional
    · intro b hb
      rw [nameOrdinals, if_pos hp] at hb
      rcases List.mem_cons.mp hb with rfl | hb
      · exact ⟨⟨ha.spelled, ha.positional_iff, by simp [hp], ha.counted⟩, _, rfl⟩
      · exact ih has b hb
    · intro b hb
      rw [nameOrdinals, if_neg hp] at hb
      rcases List.mem_cons.mp hb with rfl | hb
      · exact ⟨ha, ha.named (by simpa using hp)⟩
      · exact ih has b hb

theorem wellFormed_of_read {t : Text} {p : Pattern} (h : read t = .ok p) :
    ∀ a ∈ p.allArguments, a.WellFormed ∧ ∃ name, a.variableName = some name := by
  obtain ⟨parts, hp, h⟩ := bind_eq_ok.mp h
  have hw := wellFormed_of_readParts hp
  split at h
  · simp at h
  · obtain rfl := Except.ok.inj h
    intro a ha
    rcases List.mem_append.mp ha with ha | ha
    · exact named_of_nameOrdinals (fun b hb => hw _ (Part.argument_mem hb)) a ha
    · obtain ⟨g, hg, ha⟩ := List.mem_flatMap.mp ha
      obtain ⟨hm, hn⟩ := hw _ (Part.group_mem hg) a ha
      exact ⟨hm, hm.named hn⟩

end Pattern
end Countermand

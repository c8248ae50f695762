import Countermand.Proofs.Pattern.WellFormed
import Countermand.Proofs.Text.Characters

/-! Values written as the words of a command line. An option is written under one of its names and
scanned again as one assignment, whatever follows that looks like an option; positionals are
written one after the other and each gets its own words back. -/
namespace Countermand
open Results Matching

namespace Text

/-- Items that can be told apart when they are written with a delimiter between them. -/
def Delimits (delimiter : Text) (values : List Text) : Prop :=
  (∀ x ∈ values, x ≠ []) ∧ items delimiter (delimiter.intercalate values) = values

instance (delimiter : Text) (values : List Text) : Decidable (delimiter.Delimits values) :=
  inferInstanceAs (Decidable (_ ∧ _))

theorem Delimits.intercalate_ne_nil {delimiter : Text} {values : List Text}
    (h : delimiter.Delimits values) (hv : values ≠ []) : delimiter.intercalate values ≠ [] := by
  obtain ⟨x, xs, rfl⟩ := List.exists_cons_of_ne_nil hv
  have hx := h.1 x (by simp)
  cases xs <;> simp [List.intercalate, hx]

end Text

namespace Argument

def FitsList (positional : Bool) (values : List Text) : Option Text → Quantifier → Prop
  | some d, _ => d.Delimits values
  | none, .flag => False
  | none, .optional => values = []
  | none, .exactly count => count ≠ 1 ∧ values.length = count
  | none, .atLeastOne => values ≠ [] ∧ (positional = false → ∀ x ∈ values, ¬isOptionLike x)
  | none, .any => positional = false → ∀ x ∈ values, ¬isOptionLike x

instance (positional : Bool) (values : List Text) (d : Option Text) (q : Quantifier) :
    Decidable (FitsList positional values d q) :=
  match d, q with
  | some d, _ => inferInstanceAs (Decidable (d.Delimits values))
  | none, .flag => inferInstanceAs (Decidable False)
  | none, .optional => inferInstanceAs (Decidable (values = []))
  | none, .exactly _ => inferInstanceAs (Decidable (_ ∧ _))
  | none, .atLeastOne => inferInstanceAs (Decidable (_ ∧ _))
  | none, .any => inferInstanceAs (Decidable (_ → _))

def Fits (a : Argument) : Value → Prop
  | .flag _ => a.positional = false ∧ a.quantifier.isFlag = true
  | .text t => a.delimiter = none ∧
      (a.quantifier = .exactly 1 ∨ a.quantifier = .optional ∧ a.positional = false ∧ t ≠ [])
  | .list values => (a.positional = false → a.quantifier.isFlag = false) ∧
      FitsList a.positional values a.delimiter a.quantifier

instance (a : Argument) : DecidablePred a.Fits
  | .flag _ => inferInstanceAs (Decidable (_ ∧ _))
  | .text _ => inferInstanceAs (Decidable (_ ∧ _))
  | .list _ => inferInstanceAs (Decidable (_ ∧ _))

def attach (name value : Text) : Text :=
  if "--".toList.isPrefixOf name then name ++ '=' :: value else name ++ value

def optionWords (a : Argument) (name : Text) : Value → List Text
  | .flag given => if given then [name] else []
  | .text t => if a.quantifier = .optional then [attach name t] else [name, t]
  | .list values =>
    match a.delimiter with
    | none => name :: values
    | some d =>
      if a.quantifier ≠ .optional then [name, d.intercalate values]
      else if values = [] then [name]
      else [attach name (d.intercalate values)]

def positionalWords (a : Argument) : Value → List Text
  | .flag _ => []
  | .text t => [t]
  | .list values =>
    match a.delimiter with
    | none => values
    | some d => [d.intercalate values]

theorem isOptionLike_of_isSpelling {name : Text} (h : isSpelling name = true) :
    isOptionLike name = true ∧ name ≠ "--".toList := by
  rcases spelling_cases h with ⟨c, hc, rfl⟩ | ⟨long, rfl, hl, -⟩
  · refine ⟨rfl, ?_⟩
    rintro he
    obtain rfl : c = '-' := by simpa using he
    exact absurd hc (by decide)
  · exact ⟨rfl, by simpa using hl⟩

end Argument

namespace Pattern

def variableNames (p : Pattern) : List Text := p.slots.map Slot.variableName

def optionNames (p : Pattern) : List Text := p.optionSlots.flatMap (·.argument.spellings)

end Pattern

namespace Assignment

def name : Assignment → Text
  | .put name _ => name
  | .extend name _ => name

/-- The value of the variable if nothing was bound to it before. -/
def value : Assignment → Value
  | .put _ v => v
  | .extend _ items => .list items

end Assignment

theorem lookup_of_mem {α β : Type} [BEq α] [LawfulBEq α] {entries : List (α × β)} {key : α}
    {value : β} (hd : (entries.map Prod.fst).Nodup) (hm : (key, value) ∈ entries) :
    entries.lookup key = some value := by
  induction entries with
  | nil => simp at hm
  | cons entry entries ih =>
    obtain ⟨hnot, hd⟩ := List.nodup_cons.mp hd
    rw [List.lookup_cons]
    rcases List.mem_cons.mp hm with rfl | hm
    · simp
    · have hne : key ≠ entry.1 := by
        rintro rfl
        exact hnot (List.mem_map.mpr ⟨_, hm, rfl⟩)
      simpa [beq_eq_false_iff_ne.mpr hne] using ih hd hm

namespace Matching

variable {spellings : List (Text × Slot)} {s : Slot} {name : Text}

theorem optionWord_name (hs : findOption spellings name = .ok s)
    (hn : Argument.isSpelling name = true) {following : List Text} {a : Assignment} {used : Nat}
    (ho : occurrence s none following = .ok (a, used)) :
    optionWord spellings name following = .ok ([a], used) := by
  rcases Argument.spelling_cases hn with ⟨c, hc, rfl⟩ | ⟨long, rfl, -, hl⟩
  · have hd : c ≠ '-' := by rintro rfl; exact absurd hc (by decide)
    simp [optionWord, hd.symm, hs, ho]
  · have he : '=' ∉ '-' :: '-' :: long := by
      intro he
      have := hl '=' (by simpa using he)
      exact absurd this (by decide)
    simp [optionWord, Text.cutAt_singleton_eq_none he, hs, ho]

theorem optionWord_attach (hs : findOption spellings name = .ok s)
    (hn : Argument.isSpelling name = true) (hf : s.isFlag = false) {value : Text} (hv : value ≠ [])
    {following : List Text} {a : Assignment} {used : Nat}
    (ho : occurrence s (some value) following = .ok (a, used)) :
    optionWord spellings (Argument.attach name value) following = .ok ([a], used) := by
  rcases Argument.spelling_cases hn with ⟨c, hc, rfl⟩ | ⟨long, rfl, -, hl⟩
  · have hd : c ≠ '-' := by rintro rfl; exact absurd hc (by decide)
    obtain ⟨x, xs, rfl⟩ := List.exists_cons_of_ne_nil hv
    simp [optionWord, Argument.attach, hd.symm, hs, hf, ho]
  · have he : '=' ∉ '-' :: '-' :: long := by
      intro he
      have := hl '=' (by simpa using he)
      exact absurd this (by decide)
    have hcut := Text.cutAt_singleton he value
    simp only [List.cons_append] at hcut
    simp [optionWord, Argument.attach, hcut, hs, ho]

theorem scanOptions_optionLike {word : Text} {following positionals : List Text}
    {found more : List Assignment} {used : Nat} (hl : isOptionLike word = true)
    (hd : word ≠ "--".toList) (ho : optionWord spellings word following = .ok (found, used))
    (hr : scanOptions spellings (following.drop used) = .ok (more, positionals)) :
    scanOptions spellings (word :: following) = .ok (found ++ more, positionals) := by
  rw [scanOptions, if_neg hd, if_pos hl, ho, ok_bind]
  simp only [hr, ok_bind, pure_eq_ok]

theorem isOptionLike_attach (hn : Argument.isSpelling name = true) {value : Text}
    (hv : value ≠ []) : isOptionLike (Argument.attach name value) = true ∧
      Argument.attach name value ≠ "--".toList := by
  obtain ⟨x, xs, rfl⟩ := List.exists_cons_of_ne_nil hv
  rcases Argument.spelling_cases hn with ⟨c, hc, rfl⟩ | ⟨long, rfl, hl, -⟩
  · have hd : c ≠ '-' := by rintro rfl; exact absurd hc (by decide)
    simp [Argument.attach, hd.symm, isOptionLike]
  · simp [Argument.attach, isOptionLike]

theorem takeWhile_run {values rest : List Text} (hv : ∀ x ∈ values, ¬isOptionLike x)
    (hr : ∃ w ws, rest = w :: ws ∧ isOptionLike w = true) :
    (values ++ rest).takeWhile (!isOptionLike ·) = values := by
  obtain ⟨w, ws, rfl, hw⟩ := hr
  rw [List.takeWhile_append_of_pos (by simpa using hv)]
  simp [hw]

theorem occurrence_list {values rest : List Text} (hd : s.argument.delimiter = none)
    (hp : s.argument.positional = false) (hf : s.argument.Fits (.list values))
    (hr : ∃ w ws, rest = w :: ws ∧ isOptionLike w = true) :
    ∃ a : Assignment, a.name = s.variableName ∧ a.value = .list values ∧
      occurrence s none (values ++ rest) = .ok (a, values.length) := by
  obtain ⟨hflag, hf⟩ := hf
  replace hflag := hflag hp
  cases hq : s.argument.quantifier with
  | flag => simp [hq, Quantifier.isFlag] at hflag
  | optional =>
    obtain rfl : values = [] := by simpa [Argument.FitsList, hd, hq] using hf
    exact ⟨.put s.variableName (.list []), rfl, rfl,
      by simp [occurrence, Slot.isFlag, Quantifier.isFlag, hq]⟩
  | exactly count =>
    obtain ⟨hc, rfl⟩ : count ≠ 1 ∧ values.length = count := by
      simpa [Argument.FitsList, hd, hq] using hf
    refine ⟨.put s.variableName (.list values), rfl, rfl, ?_⟩
    match values with
    | [] => simp [Quantifier.isFlag, hq] at hflag
    | [_] => simp at hc
    | x :: y :: values => simp [occurrence, Slot.isFlag, Quantifier.isFlag, hq, hd]
  | atLeastOne =>
    obtain ⟨hne, hv⟩ : values ≠ [] ∧ ∀ x ∈ values, ¬isOptionLike x := by
      simpa [Argument.FitsList, hd, hq, hp] using hf
    have hrun := takeWhile_run hv hr
    refine ⟨.extend s.variableName values, rfl, rfl, ?_⟩
    simp [occurrence, Slot.isFlag, Quantifier.isFlag, hd, hq, hrun, hne]
  | any =>
    have hv : ∀ x ∈ values, ¬isOptionLike x := by
      simpa [Argument.FitsList, hd, hq, hp] using hf
    have hrun := takeWhile_run hv hr
    refine ⟨.extend s.variableName values, rfl, rfl, ?_⟩
    simp [occurrence, Slot.isFlag, Quantifier.isFlag, hd, hq, hrun]

theorem occurrence_delimited {d value : Text} {following : List Text} (hf : s.isFlag = false)
    (hd : s.argument.delimiter = some d) (hq : s.argument.quantifier ≠ .optional) :
    occurrence s none (value :: following) =
      .ok (.extend s.variableName (Text.items d value), 1) := by
  cases h : s.argument.quantifier <;> simp_all [occurrence]

section
variable {a : Assignment} {rest positionals : List Text} {more : List Assignment}

theorem scanOptions_separate (hs : findOption spellings name = .ok s)
    (hn : Argument.isSpelling name = true) (words : List Text)
    (ho : occurrence s none (words ++ rest) = .ok (a, words.length))
    (hm : scanOptions spellings rest = .ok (more, positionals)) :
    scanOptions spellings (name :: words ++ rest) = .ok (a :: more, positionals) := by
  obtain ⟨hl, hd⟩ := Argument.isOptionLike_of_isSpelling hn
  have hdrop : scanOptions spellings ((words ++ rest).drop words.length) =
      .ok (more, positionals) := by rwa [List.drop_left]
  exact scanOptions_optionLike hl hd (optionWord_name hs hn ho) hdrop

theorem scanOptions_attached (hs : findOption spellings name = .ok s)
    (hn : Argument.isSpelling name = true) (hf : s.isFlag = false) {value : Text}
    (hv : value ≠ []) (ho : occurrence s (some value) rest = .ok (a, 0))
    (hm : scanOptions spellings rest = .ok (more, positionals)) :
    scanOptions spellings (Argument.attach name value :: rest) = .ok (a :: more, positionals) := by
  obtain ⟨hl, hd⟩ := isOptionLike_attach hn hv
  exact scanOptions_optionLike hl hd (optionWord_attach hs hn hf hv ho) hm

end

/-- The words written for an option are scanned as one assignment of its value. -/
theorem scanOptions_optionWords (hs : findOption spellings name = .ok s)
    (hn : Argument.isSpelling name = true) (hp : s.argument.positional = false) {v : Value}
    (hf : s.argument.Fits v) (hv : v ≠ .flag false) {rest positionals : List Text}
    {more : List Assignment} (hr : ∃ w ws, rest = w :: ws ∧ isOptionLike w = true)
    (hm : scanOptions spellings rest = .ok (more, positionals)) :
    ∃ a : Assignment, a.name = s.variableName ∧ a.value = v ∧
      scanOptions spellings (s.argument.optionWords name v ++ rest) =
        .ok (a :: more, positionals) := by
  cases v with
  | flag given =>
    obtain rfl : given = true := by simpa using hv
    refine ⟨.put s.variableName (.flag true), rfl, rfl, scanOptions_separate hs hn [] ?_ hm⟩
    simp [occurrence, Slot.isFlag, hf.2]
  | text t =>
    obtain ⟨hnone, hq | ⟨hq, -, hne⟩⟩ := hf
    · refine ⟨.put s.variableName (.text t), rfl, rfl, ?_⟩
      simp only [Argument.optionWords, hq]
      refine scanOptions_separate hs hn [t] ?_ hm
      simp [occurrence, Slot.isFlag, Quantifier.isFlag, hq, hnone]
    · refine ⟨.put s.variableName (.text t), rfl, rfl, ?_⟩
      simp only [Argument.optionWords, hq, ↓reduceIte, List.cons_append, List.nil_append]
      have hflag : s.isFlag = false := by simp [Slot.isFlag, Quantifier.isFlag, hq]
      refine scanOptions_attached hs hn hflag hne ?_ hm
      simp [occurrence, hflag, hq, hnone]
  | list values =>
    cases hdelim : s.argument.delimiter with
    | none =>
      obtain ⟨a, ha, hval, ho⟩ := occurrence_list hdelim hp hf hr
      refine ⟨a, ha, hval, ?_⟩
      simp only [Argument.optionWords, hdelim]
      exact scanOptions_separate hs hn values ho hm
    | some d =>
      obtain ⟨hflag, hitems⟩ := hf
      have hflag : s.isFlag = false := hflag hp
      have hdel : d.Delimits values := by simpa [Argument.FitsList, hdelim] using hitems
      simp only [Argument.optionWords, hdelim]
      by_cases hq : s.argument.quantifier = .optional
      · refine ⟨.put s.variableName (.list values), rfl, rfl, ?_⟩
        by_cases he : values = []
        · subst he
          rw [if_neg (by simp [hq]), if_pos rfl]
          exact scanOptions_separate hs hn [] (by simp [occurrence, hflag, hq]) hm
        · rw [if_neg (by simp [hq]), if_neg he]
          exact scanOptions_attached hs hn hflag (hdel.intercalate_ne_nil he)
            (by simp [occurrence, hflag, hq, hdelim, hdel.2]) hm
      · refine ⟨.extend s.variableName values, rfl, rfl, ?_⟩
        rw [if_pos hq]
        refine scanOptions_separate hs hn [d.intercalate values] ?_ hm
        rw [List.singleton_append, occurrence_delimited hflag hdelim hq, hdel.2]
        rfl

theorem lookup_spellings_of_mem {p : Pattern} (hd : p.optionNames.Nodup) (hs : s ∈ p.optionSlots)
    (hn : name ∈ s.argument.spellings) : p.spellings.lookup name = some s := by
  have hkeys : (p.spellings.map Prod.fst).Nodup := by
    rw [Pattern.spellings, List.map_reverse, (List.reverse_perm _).nodup_iff, List.map_flatMap]
    simpa [Pattern.optionNames, Function.comp_def] using hd
  have hmem : (name, s) ∈ p.spellings := by
    rw [Pattern.spellings, List.mem_reverse, List.mem_flatMap]
    exact ⟨s, hs, List.mem_map.mpr ⟨name, hn, rfl⟩⟩
  exact lookup_of_mem hkeys hmem

theorem findOption_of_mem {p : Pattern} (hd : p.optionNames.Nodup) (hs : s ∈ p.optionSlots)
    (hn : name ∈ s.argument.spellings) : findOption p.spellings name = .ok s := by
  rw [findOption, lookup_spellings_of_mem hd hs hn]

end Matching

namespace Slot

/-- The number of words that a positional takes is not settled by its argument alone. -/
def IsVariable (s : Slot) : Prop := s.most? ≠ some s.least

instance (s : Slot) : Decidable s.IsVariable := inferInstanceAs (Decidable (_ ≠ _))

end Slot

namespace Matching

theorem leastTotal_le {slots : List Slot} {words : Slot → List Text}
    (hw : ∀ s ∈ slots, s.least ≤ (words s).length ∧ ∀ m, s.most? = some m → (words s).length ≤ m) :
    leastTotal slots ≤ (slots.flatMap words).length := by
  induction slots with
  | nil => simp [leastTotal]
  | cons s slots ih =>
    have hs := (hw s (by simp)).1
    have ih := ih fun t ht => hw t (List.mem_cons_of_mem s ht)
    simp only [leastTotal, List.flatMap_cons, List.length_append]
    omega

theorem length_flatMap_of_fixed {slots : List Slot} {words : Slot → List Text}
    (hw : ∀ s ∈ slots, s.least ≤ (words s).length ∧ ∀ m, s.most? = some m → (words s).length ≤ m)
    (hf : ∀ s ∈ slots, ¬s.IsVariable) :
    (slots.flatMap words).length = leastTotal slots := by
  induction slots with
  | nil => simp [leastTotal]
  | cons s slots ih =>
    have hs := hw s (by simp)
    have hm := hs.2 _ (Classical.not_not.mp (hf s (by simp)))
    have ih := ih (fun t ht => hw t (List.mem_cons_of_mem s ht))
      fun t ht => hf t (List.mem_cons_of_mem s ht)
    simp only [leastTotal, List.flatMap_cons, List.length_append]
    omega

/-- With one variable positional at most, every positional gets back the words written for it. -/
theorem allocate_flatMap {slots : List Slot} {words : Slot → List Text}
    (hw : ∀ s ∈ slots, s.least ≤ (words s).length ∧ ∀ m, s.most? = some m → (words s).length ≤ m)
    (hv : (slots.filter (·.IsVariable)).length ≤ 1) :
    allocate slots (slots.flatMap words) = .ok (slots.map fun s => (s, words s)) := by
  induction slots with
  | nil => rfl
  | cons s slots ih =>
    have hs := hw s (by simp)
    have hrest := fun t ht => hw t (List.mem_cons_of_mem s ht)
    have hsum := leastTotal_le hrest
    have hlen : ((s :: slots).flatMap words).length =
        (words s).length + (slots.flatMap words).length := by simp
    have hexact : s.IsVariable → (slots.flatMap words).length = leastTotal slots := by
      intro hvar
      have : slots.filter (·.IsVariable) = [] := by simpa [hvar] using hv
      exact length_flatMap_of_fixed hrest (by simpa using this)
    have ih := ih hrest (by
      by_cases hvar : s.IsVariable
      · rw [List.filter_cons_of_pos (by simpa using hvar), List.length_cons] at hv
        omega
      · rwa [List.filter_cons_of_neg (by simpa using hvar)] at hv)
    simp only [allocate, hlen]
    cases hmost : s.most? with
    | none =>
      have := hexact (by simp [Slot.IsVariable, hmost])
      have ht : (words s).length + (slots.flatMap words).length - leastTotal slots =
          (words s).length := by omega
      simp only [ht]
      rw [if_neg (by omega)]
      simp [ih]
    | some most =>
      have hle := hs.2 most hmost
      have ht : min most
          ((words s).length + (slots.flatMap words).length - leastTotal slots) =
          (words s).length := by
        by_cases hvar : s.IsVariable
        · have := hexact hvar
          omega
        · obtain rfl : most = s.least := by simpa [Slot.IsVariable, hmost] using hvar
          omega
      simp only [ht]
      rw [if_neg (by omega)]
      simp [ih]

end Matching
end Countermand

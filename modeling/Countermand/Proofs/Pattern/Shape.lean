import Countermand.Proofs.Pattern.RoundTrip
import Countermand.Proofs.Pattern.Accepted

/-! The shapes of the values that arguments bind. One assignment gives its variable a value of the
right shape, and lists that accumulate keep theirs, so the shapes survive any order and repetition
of assignments. -/
namespace Countermand
open Results Matching

namespace Argument

def HasShape (a : Argument) (v : Value) : Prop :=
  if a.positional = false ∧ a.quantifier.isFlag = true then ∃ given, v = .flag given
  else
    match a.delimiter, a.quantifier with
    | some d, _ => ∃ items, v = .list items ∧ ∀ item ∈ items, item ≠ [] ∧ ¬d <:+: item
    | none, .exactly count =>
      if count = 1 then ∃ t, v = .text t else ∃ items, v = .list items ∧ items.length = count
    | none, .atLeastOne => ∃ items, v = .list items ∧ items ≠ []
    | none, .any => ∃ items, v = .list items
    | none, .optional => (∃ t, v = .text t) ∨ v = .list []
    | none, .flag => False

/-- Occurrences of the argument add to one list. -/
def Accumulates (a : Argument) : Prop :=
  a.delimiter ≠ none ∨ a.quantifier = .atLeastOne ∨ a.quantifier = .any

theorem HasShape.append {a : Argument} (ha : a.Accumulates) {xs ys : List Text}
    (hx : a.HasShape (.list xs)) (hy : a.HasShape (.list ys)) : a.HasShape (.list (xs ++ ys)) := by
  by_cases hflag : a.positional = false ∧ a.quantifier.isFlag = true
  · simp [HasShape, hflag] at hx
  cases hd : a.delimiter with
  | some d =>
    simp only [HasShape, hflag, hd, ↓reduceIte, Value.list.injEq, exists_eq_left'] at hx hy ⊢
    intro item hitem
    exact (List.mem_append.mp hitem).elim (hx item) (hy item)
  | none =>
    rcases ha with ha | ha | ha
    · exact absurd hd ha
    · simp_all [HasShape]
    · rw [HasShape, if_neg hflag]
      simp [hd, ha]

theorem hasShape_delimited {a : Argument} {d : Text}
    (ha : ¬(a.positional = false ∧ a.quantifier.isFlag = true)) (hd : a.delimiter = some d)
    {items : List Text} (h : ∀ item ∈ items, item ≠ [] ∧ ¬d <:+: item) :
    a.HasShape (.list items) := by
  rw [HasShape, if_neg ha, hd]
  exact ⟨items, rfl, h⟩

theorem hasShape_counted {a : Argument} {count : Nat}
    (ha : ¬(a.positional = false ∧ a.quantifier.isFlag = true)) (hd : a.delimiter = none)
    (hq : a.quantifier = .exactly count) {words : List Text} (h : words.length = count) :
    (∀ t, words = [t] → a.HasShape (.text t)) ∧
      ((∀ t, words ≠ [t]) → a.HasShape (.list words)) := by
  constructor
  · rintro t rfl
    have hone : count = 1 := h.symm
    rw [HasShape, if_neg ha, hd, hq]
    dsimp only
    rw [if_pos hone]
    exact ⟨t, rfl⟩
  · intro hmany
    have hne : count ≠ 1 := by
      rintro rfl
      obtain ⟨t, ht⟩ := List.length_eq_one_iff.mp h
      exact hmany t ht
    rw [HasShape, if_neg ha, hd, hq]
    dsimp only
    rw [if_neg hne]
    exact ⟨words, rfl, h⟩

end Argument

namespace Slot

/-- A value that was given: it has the shape of its argument and is no flag left out. -/
def Takes (s : Slot) (v : Value) : Prop := s.argument.HasShape v ∧ v ≠ .flag false

structure Writes (s : Slot) (a : Assignment) : Prop where
  name : a.name = s.variableName
  takes : s.Takes a.value
  accumulates : ∀ x items, a = .extend x items → s.argument.Accumulates

theorem writes_put {s : Slot} {v : Value} (hv : s.argument.HasShape v) (hne : v ≠ .flag false) :
    s.Writes (.put s.variableName v) :=
  ⟨rfl, ⟨hv, hne⟩, by simp⟩

theorem writes_extend {s : Slot} {items : List Text} (hv : s.argument.HasShape (.list items))
    (ha : s.argument.Accumulates) : s.Writes (.extend s.variableName items) :=
  ⟨rfl, ⟨hv, by simp [Assignment.value]⟩, fun _ _ _ => ha⟩

end Slot

namespace Assignment

theorem get?_apply_of_ne {a : Assignment} {x : Text} (h : x ≠ a.name) (b : Bindings) :
    (a.apply b).get? x = b.get? x := by
  cases a with
  | put name v =>
    have hne : x ≠ name := h
    rw [apply, Bindings.get?_put, if_neg hne]
  | extend name items =>
    have hne : x ≠ name := h
    show (Bindings.extend b name items).get? x = b.get? x
    rw [Bindings.extend]
    split <;> rw [Bindings.get?_put, if_neg hne]

end Assignment

namespace Slot
variable {s : Slot}

/-- An assignment to a variable whose value has its shape, if there is one, leaves it so. -/
theorem Writes.get?_apply {a : Assignment} (h : s.Writes a) {b : Bindings}
    (hb : ∀ v, b.get? s.variableName = some v → s.Takes v) :
    ∃ v, (a.apply b).get? s.variableName = some v ∧ s.Takes v := by
  obtain ⟨hname, htakes, haccumulates⟩ := h
  rw [← hname] at hb ⊢
  cases a with
  | put name v => exact ⟨v, by simp [Assignment.apply, Assignment.name, Bindings.get?_put], htakes⟩
  | extend name items =>
    simp only [Assignment.apply, Assignment.name, Bindings.extend] at hb ⊢
    split
    · rename_i present hpresent
      have hshape := (hb _ hpresent).1.append (haccumulates name items rfl) htakes.1
      exact ⟨.list (present ++ items), by simp [Bindings.get?_put], hshape, by simp⟩
    · exact ⟨.list items, by simp [Bindings.get?_put], htakes⟩

/-- After any assignments a variable is bound if it was before or is assigned, and its value has
its shape. -/
theorem get?_applyAll {written : List Slot} {as : List Assignment}
    (h : List.Forall₂ Writes written as)
    (hd : ∀ t ∈ written, t.variableName = s.variableName → t = s) {b : Bindings}
    (hb : ∀ v, b.get? s.variableName = some v → s.Takes v) :
    (∀ v, (Assignment.applyAll b as).get? s.variableName = some v → s.Takes v) ∧
      (((Assignment.applyAll b as).get? s.variableName).isSome = true ↔
        (b.get? s.variableName).isSome = true ∨ s ∈ written) := by
  induction h generalizing b with
  | nil => exact ⟨hb, by simp [Assignment.applyAll]⟩
  | @cons t a written as hwrites _ ih =>
    have hd' := fun u hu => hd u (List.mem_cons_of_mem t hu)
    by_cases ht : t = s
    · subst ht
      obtain ⟨v, hv, htakes⟩ := hwrites.get?_apply hb
      obtain ⟨hshaped, hbound⟩ := ih hd' (b := a.apply b) fun w hw => by
        obtain rfl := Option.some.inj (hv.symm.trans hw)
        exact htakes
      refine ⟨hshaped, ?_⟩
      show ((Assignment.applyAll (a.apply b) as).get? t.variableName).isSome = true ↔ _
      simp [hbound, hv]
    · have hne : s.variableName ≠ a.name := by
        rw [hwrites.name]
        exact fun he => ht (hd t (by simp) he.symm)
      have hkeep := Assignment.get?_apply_of_ne hne b
      obtain ⟨hshaped, hbound⟩ := ih hd' (b := a.apply b) (by rwa [hkeep])
      refine ⟨hshaped, ?_⟩
      show ((Assignment.applyAll (a.apply b) as).get? s.variableName).isSome = true ↔ _
      simp [hbound, hkeep, Ne.symm ht]

theorem exists_of_get?_applyAll {written : List Slot} {as : List Assignment}
    (h : List.Forall₂ Writes written as) {b : Bindings} {x : Text} {v : Value}
    (hv : (Assignment.applyAll b as).get? x = some v) :
    b.get? x = some v ∨ ∃ t ∈ written, t.variableName = x := by
  induction h generalizing b with
  | nil => exact .inl hv
  | @cons t a written as hwrites _ ih =>
    by_cases hx : x = a.name
    · exact .inr ⟨t, by simp, hwrites.name.symm.trans hx.symm⟩
    · rcases ih hv with hb | ⟨u, hu, hname⟩
      · exact .inl ((Assignment.get?_apply_of_ne hx b).symm.trans hb)
      · exact .inr ⟨u, List.mem_cons_of_mem t hu, hname⟩

end Slot
end Countermand

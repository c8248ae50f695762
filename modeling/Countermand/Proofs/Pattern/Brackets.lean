import Mathlib
import Countermand.Pattern.Reading

/-! Brackets as a walk through a text. A text that was entered at some depth comes out at another
one unless it closes the bracket around it; the run that `enclosed` cuts off is a bracket, a text
that comes out where it was entered, and the bracket that closes. -/
namespace Countermand.Pattern

variable {opens closes : Char → Bool} {depth : Nat} {t : Text}

/-- The depth after a text, if no bracket from before it is closed in it. -/
def depthAfter (opens closes : Char → Bool) : Nat → Text → Option Nat
  | depth, [] => some depth
  | depth, c :: cs =>
    if opens c then depthAfter opens closes (depth + 1) cs
    else if closes c then
      if depth ≤ 1 then none else depthAfter opens closes (depth - 1) cs
    else depthAfter opens closes depth cs

theorem depthAfter_append (depth : Nat) (t rest : Text) :
    depthAfter opens closes depth (t ++ rest) =
      (depthAfter opens closes depth t).bind (depthAfter opens closes · rest) := by
  induction t generalizing depth with
  | nil => rfl
  | cons c t ih =>
    simp only [List.cons_append, depthAfter, ih]
    split_ifs <;> rfl

theorem depthAfter_append_of {d : Nat} (h : depthAfter opens closes depth t = some d)
    (rest : Text) :
    depthAfter opens closes depth (t ++ rest) = depthAfter opens closes d rest := by
  rw [depthAfter_append, h, Option.bind_some]

theorem depthAfter_unbracketed (h : ∀ c ∈ t, opens c = false ∧ closes c = false) (depth : Nat) :
    depthAfter opens closes depth t = some depth := by
  induction t with
  | nil => rfl
  | cons c t ih =>
    obtain ⟨ho, hc⟩ := h c (by simp)
    rw [depthAfter, ho, hc]
    exact ih fun d hd => h d (List.mem_cons_of_mem c hd)

theorem enclosed_of_depthAfter {k : Char} (hopen : opens k = false) (hclose : closes k = true)
    (h : depthAfter opens closes depth t = some 1) (rest : Text) :
    enclosed opens closes depth (t ++ k :: rest) = some (t ++ [k], rest) := by
  induction t generalizing depth with
  | nil =>
    obtain rfl : depth = 1 := by simpa [depthAfter] using h
    simp [enclosed, hopen, hclose]
  | cons c t ih =>
    simp only [depthAfter] at h
    simp only [List.cons_append, enclosed]
    split_ifs at h ⊢ <;> simp [ih h]

/-- What was cut off ends with the bracket that closes it. -/
theorem exists_of_enclosed {run rest : Text} (hd : 1 ≤ depth)
    (h : enclosed opens closes depth t = some (run, rest)) :
    ∃ body k, run = body ++ [k] ∧ opens k = false ∧ closes k = true ∧
      depthAfter opens closes depth body = some 1 := by
  induction t generalizing depth run with
  | nil => simp [enclosed] at h
  | cons c t ih =>
    have further {d : Nat} (hd : 1 ≤ d) (h : (enclosed opens closes d t).map
        (fun cut => (c :: cut.1, cut.2)) = some (run, rest)) :
        ∃ body k, run = c :: body ++ [k] ∧ opens k = false ∧ closes k = true ∧
          depthAfter opens closes d body = some 1 := by
      obtain ⟨⟨more, after⟩, hmore, heq⟩ := Option.map_eq_some_iff.mp h
      obtain ⟨rfl, rfl⟩ := Prod.mk.inj heq
      obtain ⟨body, k, rfl, hbody⟩ := ih hd hmore
      exact ⟨body, k, rfl, hbody⟩
    rw [enclosed] at h
    split_ifs at h with hopens hcloses hlast
    · obtain ⟨body, k, hrun, ho, hc, hbody⟩ := further (Nat.le_add_left 1 depth) h
      exact ⟨c :: body, k, hrun, ho, hc, by rw [depthAfter, if_pos hopens, hbody]⟩
    · obtain ⟨rfl, -⟩ := Prod.mk.inj (Option.some.inj h)
      obtain rfl : depth = 1 := Nat.le_antisymm hlast hd
      exact ⟨[], c, rfl, by simpa using hopens, hcloses, rfl⟩
    · obtain ⟨body, k, hrun, ho, hc, hbody⟩ := further (by omega) h
      refine ⟨c :: body, k, hrun, ho, hc, ?_⟩
      rw [depthAfter, if_neg hopens, if_pos hcloses, if_neg hlast, hbody]
    · obtain ⟨body, k, hrun, ho, hc, hbody⟩ := further hd h
      exact ⟨c :: body, k, hrun, ho, hc, by rw [depthAfter, if_neg hopens, if_neg hcloses, hbody]⟩

theorem enclosed_cons {o k : Char} (ho : opens o = true) (hopen : opens k = false)
    (hclose : closes k = true) (h : depthAfter opens closes 1 t = some 1) (rest : Text) :
    enclosed opens closes 0 (o :: (t ++ k :: rest)) = some (o :: (t ++ [k]), rest) := by
  rw [enclosed, if_pos ho, enclosed_of_depthAfter hopen hclose h]
  rfl

theorem exists_of_enclosed_cons {o : Char} {cs run rest : Text} (ho : opens o = true)
    (h : enclosed opens closes 0 (o :: cs) = some (run, rest)) :
    ∃ body k, run = o :: (body ++ [k]) ∧ opens k = false ∧ closes k = true ∧
      depthAfter opens closes 1 body = some 1 := by
  rw [enclosed, if_pos ho] at h
  obtain ⟨⟨more, after⟩, hmore, heq⟩ := Option.map_eq_some_iff.mp h
  obtain ⟨rfl, rfl⟩ := Prod.mk.inj heq
  obtain ⟨body, k, rfl, hbody⟩ := exists_of_enclosed (Nat.le_refl 1) hmore
  exact ⟨body, k, rfl, hbody⟩

end Countermand.Pattern

import Mathlib
import Countermand.Template.Fragment

/-! Cutting a template step by step, above all where the markers are characters; and cutting what
was put together: with one character as both markers, plain text and fragments come back as they
were written. -/
namespace Countermand.Segment

theorem escapedAfter_concat (escaped : Bool) (t : Text) (c : Char) :
    escapedAfter escaped (t ++ [c]) = (c == '\\') := by
  simp [escapedAfter]

theorem escapedAfter_append (escaped : Bool) (t more : Text) :
    escapedAfter escaped (t ++ more) = escapedAfter (escapedAfter escaped t) more := by
  rcases List.eq_nil_or_concat' more with rfl | ⟨init, c, rfl⟩
  · rw [List.append_nil]
    rfl
  · rw [← List.append_assoc, escapedAfter_concat, escapedAfter_concat]

theorem cut_cons (m : Markers) (escaped : Bool) (c : Char) (cs : Text) :
    cut m escaped (c :: cs) =
      if m.opens (c :: cs) ∧ escaped = false then
        (close m 1 (escapedAfter escaped m.opening) ((c :: cs).drop m.opening.length)).bind
          fun (body, escaped, after) => (cut m escaped after).map (.fragment body :: ·)
      else (cut m (c == '\\') cs).map (consLiteral c) := by
  rw [cut]
  by_cases ho : m.opens (c :: cs) ∧ escaped = false
  · rw [dif_pos ho, if_pos ho]
    split
    · rename_i hclose
      rw [hclose, Option.bind_none]
    · rename_i hclose
      rw [hclose, Option.bind_some]
  · rw [dif_neg ho, if_neg ho]

section
variable {o q c : Char} {cs : Text}

theorem isPrefixOf_character : [q].isPrefixOf (c :: cs) = true ↔ c = q := by
  rw [List.isPrefixOf_cons_cons, List.isPrefixOf_nil_left, Bool.and_true, beq_iff_eq]
  exact eq_comm

theorem opens_character : Markers.opens ⟨[o], [q]⟩ (c :: cs) = true ↔ c = o := by
  rw [Markers.opens, List.isEmpty_cons, Bool.not_false, Bool.true_and]
  exact isPrefixOf_character

theorem escapedAfter_character (hq : q ≠ '\\') (escaped : Bool) :
    escapedAfter escaped [q] = false :=
  beq_eq_false_iff_ne.mpr hq

theorem cut_character (ho : o ≠ '\\') (escaped : Bool) (c : Char) (cs : Text) :
    cut ⟨[o], [q]⟩ escaped (c :: cs) =
      if c = o ∧ escaped = false then
        (close ⟨[o], [q]⟩ 1 false cs).bind
          fun (body, escaped, after) => (cut ⟨[o], [q]⟩ escaped after).map (.fragment body :: ·)
      else (cut ⟨[o], [q]⟩ (c == '\\') cs).map (consLiteral c) := by
  rw [cut_cons, escapedAfter_character ho]
  simp only [opens_character]
  rfl

/-- A fragment ends at a closing marker without a backslash before it; different markers nest. -/
theorem close_character (ho : o ≠ '\\') (hq : q ≠ '\\') (depth : Nat) (escaped : Bool) (c : Char)
    (cs : Text) :
    close ⟨[o], [q]⟩ depth escaped (c :: cs) =
      if o ≠ q ∧ c = o then
        (close ⟨[o], [q]⟩ (depth + 1) false cs).map fun (body, rest) => (c :: body, rest)
      else if c = q ∧ escaped = false then
        if depth ≤ 1 then some ([], false, cs)
        else (close ⟨[o], [q]⟩ (depth - 1) false cs).map fun (body, rest) => (c :: body, rest)
      else (close ⟨[o], [q]⟩ depth (c == '\\') cs).map fun (body, rest) => (c :: body, rest) := by
  have hne : ([o] : Text) ≠ [q] ↔ o ≠ q := by simp
  rw [close, escapedAfter_character ho, escapedAfter_character hq]
  simp only [opens_character, hne, isPrefixOf_character]
  by_cases hopen : o ≠ q ∧ c = o
  · obtain ⟨-, rfl⟩ := id hopen
    rw [if_pos hopen, if_pos hopen]
    rfl
  · rw [if_neg hopen, if_neg hopen]
    by_cases hclose : c = q ∧ escaped = false
    · obtain ⟨rfl, -⟩ := id hclose
      rw [if_pos hclose, if_pos hclose]
      rfl
    · rw [if_neg hclose, if_neg hclose]

end

def IsPlain (q : Char) (t : Text) : Prop := ∀ c ∈ t, c ≠ q ∧ c ≠ '\\'

instance (q : Char) (t : Text) : Decidable (IsPlain q t) :=
  List.decidableBAll (fun c => c ≠ q ∧ c ≠ '\\') t

variable {q : Char} {t rest : Text}

theorem IsPlain.cons {c : Char} (h : IsPlain q (c :: t)) :
    c ≠ q ∧ (c == '\\') = false ∧ IsPlain q t := by
  obtain ⟨hq, hb⟩ := h c (by simp)
  exact ⟨hq, beq_eq_false_iff_ne.mpr hb, fun d hd => h d (List.mem_cons_of_mem c hd)⟩

theorem close_plain (hq : q ≠ '\\') (h : IsPlain q t) :
    close ⟨[q], [q]⟩ 1 false (t ++ q :: rest) = some (t, false, rest) := by
  induction t with
  | nil => simp [close_character hq hq]
  | cons c t ih =>
    obtain ⟨hc, hb, ht⟩ := h.cons
    simp [close_character hq hq, hc, hb, ih ht]

theorem cut_fragment (hq : q ≠ '\\') (h : IsPlain q t) :
    cut ⟨[q], [q]⟩ false (q :: (t ++ q :: rest)) =
      (cut ⟨[q], [q]⟩ false rest).map (.fragment t :: ·) := by
  rw [cut_character hq, if_pos ⟨rfl, rfl⟩, close_plain hq h, Option.bind_some]

def StartsMarked : List Segment → Prop
  | .literal _ :: _ => False
  | _ => True

instance : (segments : List Segment) → Decidable (StartsMarked segments)
  | [] => inferInstanceAs (Decidable True)
  | .literal _ :: _ => inferInstanceAs (Decidable False)
  | .fragment _ :: _ => inferInstanceAs (Decidable True)

/-- Segments that can be told apart when they are written one after the other. -/
def AreWritten (q : Char) : List Segment → Prop
  | [] => True
  | .literal t :: rest => (t ≠ [] ∧ IsPlain q t) ∧ StartsMarked rest ∧ AreWritten q rest
  | .fragment t :: rest => IsPlain q t ∧ AreWritten q rest

instance AreWritten.decidable : (segments : List Segment) → Decidable (AreWritten q segments)
  | [] => inferInstanceAs (Decidable True)
  | .literal _ :: rest =>
    have := decidable rest
    inferInstanceAs (Decidable (_ ∧ _ ∧ _))
  | .fragment _ :: rest =>
    have := decidable rest
    inferInstanceAs (Decidable (_ ∧ _))

theorem consLiteral_eq {segments : List Segment} (c : Char) (h : StartsMarked segments) :
    consLiteral c segments = .literal [c] :: segments := by
  unfold consLiteral
  split
  · exact h.elim
  · rfl

def literals (t : Text) : List Segment := if t = [] then [] else [.literal t]

theorem foldr_consLiteral (segments : List Segment) (h : StartsMarked segments) (t : Text) :
    t.foldr consLiteral segments = literals t ++ segments := by
  induction t with
  | nil => rfl
  | cons c t ih =>
    rw [List.foldr_cons, ih]
    by_cases ht : t = []
    · simpa [literals, ht] using consLiteral_eq c h
    · simp [literals, ht, consLiteral]

theorem foldr_consLiteral_nil (t : Text) : t.foldr consLiteral [] = literals t := by
  rw [foldr_consLiteral [] trivial, List.append_nil]

theorem foldr_consLiteral_fragment (t body : Text) (segments : List Segment) :
    t.foldr consLiteral (.fragment body :: segments) =
      literals t ++ .fragment body :: segments :=
  foldr_consLiteral (.fragment body :: segments) trivial t

theorem cut_plain (hq : q ≠ '\\') (h : IsPlain q t) (ht : t ≠ []) {segments : List Segment}
    (hm : StartsMarked segments) (hs : cut ⟨[q], [q]⟩ false rest = some segments) :
    cut ⟨[q], [q]⟩ false (t ++ rest) = some (.literal t :: segments) := by
  induction t with
  | nil => exact absurd rfl ht
  | cons c t ih =>
    obtain ⟨hc, hb, hplain⟩ := h.cons
    rw [List.cons_append, cut_character hq, if_neg (fun ho => hc ho.1), hb]
    cases t with
    | nil => rw [List.nil_append, hs, Option.map_some, consLiteral_eq c hm]
    | cons d t =>
      rw [ih hplain (by simp)]
      rfl

theorem ofTemplate_written (hq : q ≠ '\\') (segments : List Segment)
    (h : AreWritten q segments) :
    ofTemplate ⟨[q], [q]⟩ (segments.flatMap (spelling ⟨[q], [q]⟩)) = some segments := by
  induction segments with
  | nil => rw [ofTemplate, List.flatMap_nil, cut]
  | cons s segments ih =>
    cases s with
    | literal t =>
      obtain ⟨⟨ht, hplain⟩, hm, hrest⟩ := h
      exact cut_plain hq hplain ht hm (ih hrest)
    | fragment t =>
      obtain ⟨hplain, hrest⟩ := h
      have hspelling : (fragment t :: segments).flatMap (spelling ⟨[q], [q]⟩) =
          q :: (t ++ q :: segments.flatMap (spelling ⟨[q], [q]⟩)) := by
        simp [spelling]
      rw [ofTemplate, hspelling, cut_fragment hq hplain]
      exact congrArg (Option.map (.fragment t :: ·)) (ih hrest)

end Countermand.Segment

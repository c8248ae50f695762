import Countermand.Text

/-! Cutting a template into literal text and marked fragments. What was cut gives the template
back when the markers are written again. -/
namespace Countermand

/-- What is written before and after a fragment. -/
structure Markers where
  opening : Text
  closing : Text
  deriving DecidableEq, Repr

inductive Segment
  | literal (text : Text)
  | fragment (text : Text)
  deriving DecidableEq, Repr

namespace Markers

def percent : Markers := ⟨"%".toList, "%".toList⟩

/-- The markers inside double-quoted strings. -/
def backquote : Markers := ⟨"\x60".toList, "\x60".toList⟩

/-- An opening marker stands at the front; an empty one stands nowhere. -/
def opens (m : Markers) (rest : Text) : Bool := !m.opening.isEmpty && m.opening.isPrefixOf rest

theorem opening_pos {m : Markers} {rest : Text} (h : m.opens rest) : 0 < m.opening.length := by
  simp only [opens, Bool.and_eq_true, Bool.not_eq_true', List.isEmpty_eq_false_iff] at h
  exact List.length_pos_iff.mpr h.1

end Markers

namespace Segment

/-- Whether the next character comes after a backslash, once `read` has been read. -/
def escapedAfter (escaped : Bool) (read : Text) : Bool :=
  match read.getLast? with
  | some c => c == '\\'
  | none => escaped

def consLiteral (c : Char) : List Segment → List Segment
  | .literal text :: segments => .literal (c :: text) :: segments
  | segments => .literal [c] :: segments

/-- The text up to the marker that closes the fragment, whether the character after that marker
is escaped, and the rest. Distinct markers nest, and then an opening marker counts even after a
backslash; a closing marker does not. -/
def close (m : Markers) (depth : Nat) (escaped : Bool) (rest : Text) :
    Option (Text × Bool × Text) :=
  match rest with
  | [] => none
  | c :: cs =>
    if m.opening ≠ m.closing ∧ m.opens (c :: cs) then
      (close m (depth + 1) (escapedAfter escaped m.opening)
        ((c :: cs).drop m.opening.length)).map fun (body, rest) => (m.opening ++ body, rest)
    else if m.closing.isPrefixOf (c :: cs) ∧ escaped = false then
      if depth ≤ 1 then
        some ([], escapedAfter escaped m.closing, (c :: cs).drop m.closing.length)
      else
        (close m (depth - 1) (escapedAfter escaped m.closing)
          ((c :: cs).drop m.closing.length)).map fun (body, rest) => (m.closing ++ body, rest)
    else (close m depth (c == '\\') cs).map fun (body, rest) => (c :: body, rest)
termination_by (rest.length, depth)
decreasing_by
  · rename_i h
    have := Markers.opening_pos h.2
    simp only [List.length_drop, List.length_cons]
    exact Prod.Lex.left _ _ (by omega)
  · by_cases hm : m.closing.length = 0
    · rw [hm, List.drop_zero]
      exact Prod.Lex.right _ (by omega)
    · simp only [List.length_drop, List.length_cons]
      exact Prod.Lex.left _ _ (by omega)
  · exact Prod.Lex.left _ _ (by simp)

theorem append_of_close {m : Markers} {depth : Nat} {escaped escaped' : Bool}
    {rest body after : Text} (h : close m depth escaped rest = some (body, escaped', after)) :
    rest = body ++ m.closing ++ after := by
  fun_induction close m depth escaped rest generalizing body with
  | case1 => simp at h
  | case2 depth escaped c cs hc ih =>
    obtain ⟨⟨b, e, a⟩, hb, he⟩ := Option.map_eq_some_iff.mp h
    simp only [Prod.mk.injEq] at he
    obtain ⟨rfl, rfl, rfl⟩ := he
    have hp : m.opening <+: c :: cs := by
      have := hc.2
      simp only [Markers.opens, Bool.and_eq_true, List.isPrefixOf_iff_prefix] at this
      exact this.2
    rw [List.append_assoc, List.append_assoc, ← List.append_assoc b, ← ih hb]
    exact (List.prefix_iff_eq_append.mp hp).symm
  | case3 depth escaped c cs hc hd hle =>
    simp only [Option.some.injEq, Prod.mk.injEq] at h
    obtain ⟨rfl, rfl, rfl⟩ := h
    have hp : m.closing <+: c :: cs := List.isPrefixOf_iff_prefix.mp hd.1
    simpa using (List.prefix_iff_eq_append.mp hp).symm
  | case4 depth escaped c cs hc hd hle ih =>
    obtain ⟨⟨b, e, a⟩, hb, he⟩ := Option.map_eq_some_iff.mp h
    simp only [Prod.mk.injEq] at he
    obtain ⟨rfl, rfl, rfl⟩ := he
    have hp : m.closing <+: c :: cs := List.isPrefixOf_iff_prefix.mp hd.1
    rw [List.append_assoc, List.append_assoc, ← List.append_assoc b, ← ih hb]
    exact (List.prefix_iff_eq_append.mp hp).symm
  | case5 depth escaped c cs hc hd ih =>
    obtain ⟨⟨b, e, a⟩, hb, he⟩ := Option.map_eq_some_iff.mp h
    simp only [Prod.mk.injEq] at he
    obtain ⟨rfl, rfl, rfl⟩ := he
    rw [ih hb]
    simp

def cut (m : Markers) (escaped : Bool) (rest : Text) : Option (List Segment) :=
  match rest with
  | [] => some []
  | c :: cs =>
    if _ho : m.opens (c :: cs) ∧ escaped = false then
      match _hc : close m 1 (escapedAfter escaped m.opening) ((c :: cs).drop m.opening.length) with
      | none => none
      | some (body, escaped, after) => (cut m escaped after).map (.fragment body :: ·)
    else (cut m (c == '\\') cs).map (consLiteral c)
termination_by rest.length
decreasing_by
  · have := Markers.opening_pos _ho.1
    have := congrArg List.length (append_of_close _hc)
    simp only [List.length_drop, List.length_append, List.length_cons] at *
    omega
  · simp

def ofTemplate (m : Markers) (template : Text) : Option (List Segment) := cut m false template

def spelling (m : Markers) : Segment → Text
  | .literal text => text
  | .fragment text => m.opening ++ text ++ m.closing

end Segment
end Countermand

import Countermand.Proofs.Template.Cutting

/-! Cutting by bytes. A place in a template is the number of bytes before it. A slice that goes
backwards, out of the template or to the inside of a character has no result, and then cutting has
none either; nor has it one if a loop has not ended after a limit of rounds. With two rounds for
each byte it always has one, which gives the template back when the markers are written again. -/
namespace Countermand.Segment

/-- No literal text is empty, and none stands next to another one. -/
def AreSeparated : List Segment → Prop
  | [] => True
  | .literal t :: rest => t ≠ [] ∧ StartsMarked rest ∧ AreSeparated rest
  | .fragment _ :: rest => AreSeparated rest

theorem AreSeparated.consLiteral {segments : List Segment} (h : AreSeparated segments) (c : Char) :
    AreSeparated (consLiteral c segments) := by
  cases segments with
  | nil => exact ⟨List.cons_ne_nil c [], trivial, trivial⟩
  | cons segment rest =>
    cases segment with
    | literal t => exact ⟨List.cons_ne_nil c t, h.2⟩
    | fragment t => exact ⟨List.cons_ne_nil c [], trivial, h⟩

theorem flatMap_consLiteral (m : Markers) (c : Char) (segments : List Segment) :
    (consLiteral c segments).flatMap (spelling m) = c :: segments.flatMap (spelling m) := by
  cases segments with
  | nil => rfl
  | cons segment rest => cases segment <;> rfl

theorem append_drop_of_isPrefixOf {marker rest : Text} (h : marker.isPrefixOf rest = true) :
    rest = marker ++ rest.drop marker.length :=
  (List.prefix_iff_eq_append.mp (List.isPrefixOf_iff_prefix.mp h)).symm

theorem isPrefixOf_of_opens {m : Markers} {rest : Text} (h : m.opens rest = true) :
    m.opening.isPrefixOf rest = true :=
  (Bool.and_eq_true_iff.mp h).2

theorem isPrefixOf_eq_opens {m : Markers} (hm : m.opening ≠ []) (rest : Text) :
    m.opening.isPrefixOf rest = m.opens rest := by
  rw [Markers.opens, List.isEmpty_eq_false_iff.mpr hm, Bool.not_false, Bool.true_and]

theorem eq_of_close {m : Markers} {rest body after : Text} {escaped escaped' : Bool} {depth : Nat}
    (hopens : m.opens rest = true)
    (hclose : close m depth escaped (rest.drop m.opening.length) = some (body, escaped', after)) :
    rest = m.opening ++ body ++ m.closing ++ after := by
  rw [append_drop_of_isPrefixOf (isPrefixOf_of_opens hopens), append_of_close hclose]
  simp only [List.append_assoc]

theorem lossless_of_cut {m : Markers} {escaped : Bool} {rest : Text} {segments : List Segment}
    (h : cut m escaped rest = some segments) :
    segments.flatMap (spelling m) = rest ∧ AreSeparated segments := by
  fun_induction cut m escaped rest generalizing segments with
  | case1 escaped =>
    obtain rfl := Option.some.inj h
    exact ⟨rfl, trivial⟩
  | case2 => simp at h
  | case3 escaped c cs hopen body flag after hclose ih =>
    obtain ⟨more, hmore, rfl⟩ := Option.map_eq_some_iff.mp h
    obtain ⟨hspelling, hseparated⟩ := ih hmore
    refine ⟨?_, hseparated⟩
    rw [List.flatMap_cons, hspelling, eq_of_close hopen.1 hclose]
    rfl
  | case4 escaped c cs hopen ih =>
    obtain ⟨more, hmore, rfl⟩ := Option.map_eq_some_iff.mp h
    obtain ⟨hspelling, hseparated⟩ := ih hmore
    exact ⟨by rw [flatMap_consLiteral, hspelling], hseparated.consLiteral c⟩

namespace Bytes

open String (utf8Len)

def split? : Text → Nat → Option (Text × Text)
  | t, 0 => some ([], t)
  | [], _ + 1 => none
  | c :: cs, n + 1 =>
    if n + 1 < c.utf8Size then none
    else (split? cs (n + 1 - c.utf8Size)).map fun (before, rest) => (c :: before, rest)

def slice? (t : Text) (first last : Nat) : Option Text := do
  if last < first then none
  let (before, _) ← split? t last
  let (_, text) ← split? before first
  return text

def isEscaped? (t : Text) (place : Nat) : Option Bool := do
  let (before, _) ← split? t place
  return before.getLast? == some '\\'

def next? (t : Text) (place : Nat) : Option Nat := do
  let (_, rest) ← split? t place
  return place + (rest.head?.map Char.utf8Size).getD 1

def back? (place bytes : Nat) : Option Nat := if place < bytes then none else some (place - bytes)

def literals? (t : Text) (first last : Nat) : Option (List Segment) := do
  if first = last then
    return []
  return [.literal (← slice? t first last)]

def closing? (m : Markers) (t : Text) : Nat → Nat → Nat → Option (Option Nat)
  | 0, _, _ => none
  | rounds + 1, depth, head => do
    if utf8Len t ≤ head then
      return none
    let (_, rest) ← split? t head
    if m.opening.isPrefixOf rest ∧ ¬(m.opening = m.closing ∧ depth ≠ 0) then
      closing? m t rounds (depth + 1) (head + utf8Len m.opening)
    else if m.closing.isPrefixOf rest ∧ (← isEscaped? t head) = false then
      if depth - 1 = 0 then
        return some (head + utf8Len m.closing)
      closing? m t rounds (depth - 1) (head + utf8Len m.closing)
    else
      closing? m t rounds depth (← next? t head)

/-- Cuts from `head` on; the segments that have been found reach to `last`. -/
def cut? (m : Markers) (limit : Nat) (t : Text) :
    Nat → Nat → Nat → List Segment → Option (Option (List Segment))
  | 0, _, _, _ => none
  | rounds + 1, head, last, found => do
    if utf8Len t ≤ head then
      return some (found ++ (← literals? t last (utf8Len t)))
    let (_, rest) ← split? t head
    if m.opening.isPrefixOf rest = false ∨ (← isEscaped? t head) = true then
      cut? m limit t rounds (← next? t head) last found
    else
      let text ← literals? t last head
      match ← closing? m t limit 0 head with
      | none => return none
      | some place =>
        let body ← slice? t (head + utf8Len m.opening) (← back? place (utf8Len m.closing))
        cut? m limit t rounds place place (found ++ text ++ [.fragment body])

def ofTemplate? (m : Markers) (limit : Nat) (t : Text) : Option (Option (List Segment)) :=
  cut? m limit t limit 0 0 []

section
variable (before text rest : Text) (c : Char)

theorem split?_zero (t : Text) : split? t 0 = some ([], t) := by
  cases t <;> rfl

theorem split?_append : split? (before ++ rest) (utf8Len before) = some (before, rest) := by
  induction before with
  | nil => exact split?_zero rest
  | cons c before ih =>
    have hpos := c.utf8Size_pos
    obtain ⟨n, hn⟩ : ∃ n, utf8Len (c :: before) = n + 1 :=
      Nat.exists_eq_succ_of_ne_zero (by rw [String.utf8Len_cons]; omega)
    have hback : n + 1 - c.utf8Size = utf8Len before := by
      rw [← hn, String.utf8Len_cons, Nat.add_sub_cancel]
    have hsize : ¬n + 1 < c.utf8Size := by
      rw [← hn, String.utf8Len_cons]
      omega
    rw [hn, List.cons_append, split?, if_neg hsize, hback, ih, Option.map_some]

theorem slice?_append :
    slice? (before ++ text ++ rest) (utf8Len before) (utf8Len (before ++ text)) = some text := by
  have hle : ¬utf8Len (before ++ text) < utf8Len before := by
    rw [String.utf8Len_append]
    omega
  rw [slice?, if_neg hle, split?_append]
  show (split? (before ++ text) (utf8Len before)).bind _ = _
  rw [split?_append]
  rfl

theorem isEscaped?_append :
    isEscaped? (before ++ rest) (utf8Len before) = some (escapedAfter false before) := by
  rw [isEscaped?, split?_append]
  show some (before.getLast? == some '\\') = some (escapedAfter false before)
  cases h : before.getLast? <;> simp [escapedAfter, h]

theorem next?_append :
    next? (before ++ c :: rest) (utf8Len before) = some (utf8Len (before ++ [c])) := by
  simp [next?, split?_append]

theorem back?_append : back? (utf8Len (before ++ text)) (utf8Len text) = some (utf8Len before) := by
  simp [back?]

theorem literals?_append :
    literals? (before ++ text ++ rest) (utf8Len before) (utf8Len (before ++ text)) =
      some (literals text) := by
  by_cases h : text = []
  · simp [literals?, literals, h]
  · have hne : utf8Len text ≠ 0 := fun hz => h (String.utf8Len_eq_zero.mp hz)
    rw [literals?, slice?_append]
    simp [literals, h, hne]

end

theorem utf8Len_lt (before : Text) (c : Char) (cs : Text) :
    utf8Len before < utf8Len (before ++ c :: cs) := by
  have := c.utf8Size_pos
  rw [String.utf8Len_append, String.utf8Len_cons]
  omega

theorem utf8Len_drop {marker rest : Text} (h : marker.isPrefixOf rest = true) :
    utf8Len rest = utf8Len marker + utf8Len (rest.drop marker.length) := by
  rw [← String.utf8Len_append, ← append_drop_of_isPrefixOf h]

theorem closing?_cons (m : Markers) (rounds depth : Nat) (before : Text) (c : Char) (cs : Text) :
    closing? m (before ++ c :: cs) (rounds + 1) depth (utf8Len before) =
      if m.opening.isPrefixOf (c :: cs) ∧ ¬(m.opening = m.closing ∧ depth ≠ 0) then
        closing? m (before ++ c :: cs) rounds (depth + 1) (utf8Len (before ++ m.opening))
      else if m.closing.isPrefixOf (c :: cs) ∧ escapedAfter false before = false then
        if depth - 1 = 0 then some (some (utf8Len (before ++ m.closing)))
        else closing? m (before ++ c :: cs) rounds (depth - 1) (utf8Len (before ++ m.closing))
      else closing? m (before ++ c :: cs) rounds depth (utf8Len (before ++ [c])) := by
  rw [closing?, if_neg (utf8Len_lt before c cs).not_ge, split?_append, isEscaped?_append,
    next?_append]
  simp only [String.utf8Len_append]
  rfl

/-- What comes after a fragment is told whether a backslash stands before it. -/
def Tells (m : Markers) (escaped : Bool) (found : Option (Text × Bool × Text)) : Prop :=
  ∀ body escaped' after, found = some (body, escaped', after) →
    escaped' = escapedAfter escaped (body ++ m.closing)

theorem Tells.behind {m : Markers} {escaped : Bool} {found : Option (Text × Bool × Text)}
    (marker : Text) (h : Tells m (escapedAfter escaped marker) found) :
    Tells m escaped (found.map fun (body, rest) => (marker ++ body, rest)) := by
  intro body escaped' after hsome
  obtain ⟨⟨first, flag, last⟩, hfound, heq⟩ := Option.map_eq_some_iff.mp hsome
  simp only [Prod.mk.injEq] at heq
  obtain ⟨rfl, rfl, -⟩ := heq
  rw [h first flag last hfound, List.append_assoc]
  exact (escapedAfter_append ..).symm

theorem tells (m : Markers) (depth : Nat) (escaped : Bool) (rest : Text) :
    Tells m escaped (close m depth escaped rest) := by
  fun_induction close m depth escaped rest with
  | case1 => simp [Tells]
  | case2 depth escaped c cs hopen ih => exact ih.behind m.opening
  | case3 depth escaped c cs hopen hclose hle =>
    intro body escaped' after h
    simp only [Option.some.injEq, Prod.mk.injEq] at h
    obtain ⟨rfl, rfl, -⟩ := h
    rfl
  | case4 depth escaped c cs hopen hclose hle ih => exact ih.behind m.closing
  | case5 depth escaped c cs hopen hclose ih => exact Tells.behind [c] ih

/-- The search finds the place to which the fragment reaches. In every round it reads on or goes
up in depth, and it goes down only where it has read an opening marker. -/
def Finds (m : Markers) (depth : Nat) (escaped : Bool) (before rest : Text) : Prop :=
  ∀ rounds, 2 * utf8Len rest + depth ≤ rounds →
    closing? m (before ++ rest) (rounds + 1) depth (utf8Len before) =
      some ((close m depth escaped rest).map fun (body, _) => utf8Len (before ++ body ++ m.closing))

theorem Finds.behind {m : Markers} {rounds depth : Nat} {escaped : Bool} {before rest : Text}
    (marker : Text) (h : Finds m depth escaped (before ++ marker) (rest.drop marker.length))
    (hmarker : marker.isPrefixOf rest = true)
    (hrounds : 2 * utf8Len (rest.drop marker.length) + depth < rounds) :
    closing? m (before ++ rest) rounds depth (utf8Len (before ++ marker)) =
      some (((close m depth escaped (rest.drop marker.length)).map
        fun (body, rest) => (marker ++ body, rest)).map
          fun (body, _) => utf8Len (before ++ body ++ m.closing)) := by
  obtain ⟨rounds, rfl⟩ : ∃ n, rounds = n + 1 := Nat.exists_eq_succ_of_ne_zero (by omega)
  have hfind := h rounds (by omega)
  rw [List.append_assoc, ← append_drop_of_isPrefixOf hmarker] at hfind
  rw [hfind, Option.map_map]
  simp only [Function.comp_def, List.append_assoc]

section
variable {m : Markers} (hm : m.opening ≠ [])
include hm

/-- Inside of a fragment a round asks for the markers as the search by characters does. -/
theorem closing?_inside {depth : Nat} (hdepth : depth ≠ 0) (rounds : Nat) (before : Text) (c : Char)
    (cs : Text) :
    closing? m (before ++ c :: cs) (rounds + 1) depth (utf8Len before) =
      if m.opening ≠ m.closing ∧ m.opens (c :: cs) then
        closing? m (before ++ c :: cs) rounds (depth + 1) (utf8Len (before ++ m.opening))
      else if m.closing.isPrefixOf (c :: cs) ∧ escapedAfter false before = false then
        if depth ≤ 1 then some (some (utf8Len (before ++ m.closing)))
        else closing? m (before ++ c :: cs) rounds (depth - 1) (utf8Len (before ++ m.closing))
      else closing? m (before ++ c :: cs) rounds depth (utf8Len (before ++ [c])) := by
  have hopens : m.opens (c :: cs) = true ∧ ¬(m.opening = m.closing ∧ depth ≠ 0) ↔
      m.opening ≠ m.closing ∧ m.opens (c :: cs) = true :=
    ⟨fun h => ⟨fun he => h.2 ⟨he, hdepth⟩, h.1⟩, fun h => ⟨h.2, fun he => h.1 he.1⟩⟩
  have hlast : depth - 1 = 0 ↔ depth ≤ 1 := by omega
  rw [closing?_cons, isPrefixOf_eq_opens hm]
  simp only [hopens, hlast]

theorem utf8Len_opening_pos : 0 < utf8Len m.opening :=
  Nat.pos_of_ne_zero fun h => hm (String.utf8Len_eq_zero.mp h)

theorem finds {depth : Nat} (hdepth : depth ≠ 0) {escaped : Bool} (before rest : Text)
    (he : escapedAfter false before = escaped) : Finds m depth escaped before rest := by
  have hpos := utf8Len_opening_pos hm
  unfold Finds
  -- The rounds follow the search by characters, one for each of its calls.
  fun_induction close m depth escaped rest generalizing before with
  | case1 =>
    intro rounds hrounds
    rw [List.append_nil, closing?, if_pos le_rfl]
    rfl
  | case2 depth escaped c cs hopen ih =>
    intro rounds hrounds
    subst he
    have hopening := isPrefixOf_of_opens hopen.2
    rw [utf8Len_drop hopening] at hrounds
    rw [closing?_inside hm hdepth, if_pos hopen]
    apply Finds.behind m.opening
    · exact ih depth.succ_ne_zero _ (escapedAfter_append ..)
    · exact hopening
    · omega
  | case3 depth escaped c cs hopen hclose hle =>
    intro rounds hrounds
    subst he
    rw [closing?_inside hm hdepth, if_neg hopen, if_pos hclose, if_pos hle]
    simp
  | case4 depth escaped c cs hopen hclose hle ih =>
    intro rounds hrounds
    subst he
    rw [utf8Len_drop hclose.1] at hrounds
    rw [closing?_inside hm hdepth, if_neg hopen, if_pos hclose, if_neg hle]
    apply Finds.behind m.closing
    · exact ih (by omega) _ (escapedAfter_append ..)
    · exact hclose.1
    · omega
  | case5 depth escaped c cs hopen hclose ih =>
    intro rounds hrounds
    subst he
    have hc := c.utf8Size_pos
    rw [String.utf8Len_cons] at hrounds
    rw [closing?_inside hm hdepth, if_neg hopen, if_neg hclose]
    apply Finds.behind [c]
    · exact ih hdepth _ (escapedAfter_concat ..)
    · exact isPrefixOf_character.mpr rfl
    · show 2 * utf8Len cs + depth < rounds
      omega

theorem closing?_opening {before rest : Text} {rounds : Nat} (hrounds : 2 * utf8Len rest < rounds)
    (hopens : m.opens rest = true) :
    closing? m (before ++ rest) rounds 0 (utf8Len before) =
      some ((close m 1 (escapedAfter (escapedAfter false before) m.opening)
        (rest.drop m.opening.length)).map fun (body, _) =>
          utf8Len (before ++ m.opening ++ body ++ m.closing)) := by
  have hopening := isPrefixOf_of_opens hopens
  have hpos := utf8Len_opening_pos hm
  rw [utf8Len_drop hopening] at hrounds
  obtain ⟨rounds, rfl⟩ : ∃ n, rounds = n + 2 := ⟨rounds - 2, by omega⟩
  have hfinds := finds hm one_ne_zero (before ++ m.opening) (rest.drop m.opening.length)
    (escapedAfter_append ..) rounds (by omega)
  rw [List.append_assoc, ← append_drop_of_isPrefixOf hopening] at hfinds
  cases rest with
  | nil => exact absurd (List.prefix_nil.mp (List.isPrefixOf_iff_prefix.mp hopening)) hm
  | cons c cs =>
    rw [closing?_cons, if_pos ⟨hopening, fun h => h.2 rfl⟩]
    exact hfinds

section
variable {limit rounds : Nat} {before text : Text} {c : Char} {cs : Text} {found : List Segment}

theorem cut?_text (h : ¬(m.opens (c :: cs) = true ∧ escapedAfter false (before ++ text) = false)) :
    cut? m limit (before ++ text ++ c :: cs) (rounds + 1) (utf8Len (before ++ text))
        (utf8Len before) found =
      cut? m limit (before ++ text ++ c :: cs) rounds (utf8Len (before ++ text ++ [c]))
        (utf8Len before) found := by
  have hopens : m.opening.isPrefixOf (c :: cs) = false ∨
      escapedAfter false (before ++ text) = true := by
    rw [not_and_or, Bool.not_eq_true, Bool.not_eq_false] at h
    rwa [isPrefixOf_eq_opens hm]
  rw [cut?, if_neg (utf8Len_lt (before ++ text) c cs).not_ge, split?_append, isEscaped?_append,
    next?_append]
  exact if_pos hopens

theorem cut?_opening (hlimit : 2 * utf8Len (c :: cs) < limit)
    (h : m.opens (c :: cs) = true ∧ escapedAfter false (before ++ text) = false) :
    cut? m limit (before ++ text ++ c :: cs) (rounds + 1) (utf8Len (before ++ text))
        (utf8Len before) found =
      match close m 1 (escapedAfter false m.opening) ((c :: cs).drop m.opening.length) with
      | none => some none
      | some (body, _) =>
        cut? m limit (before ++ text ++ c :: cs) rounds
          (utf8Len (before ++ text ++ m.opening ++ body ++ m.closing))
          (utf8Len (before ++ text ++ m.opening ++ body ++ m.closing))
          (found ++ literals text ++ [.fragment body]) := by
  have hopens : ¬(m.opening.isPrefixOf (c :: cs) = false ∨ false = true) := by
    rw [isPrefixOf_eq_opens hm, h.1]
    decide
  rw [cut?, if_neg (utf8Len_lt (before ++ text) c cs).not_ge, split?_append, isEscaped?_append,
    literals?_append, closing?_opening hm hlimit h.1, h.2]
  refine (if_neg hopens).trans ?_
  cases hclose : close m 1 (escapedAfter false m.opening) ((c :: cs).drop m.opening.length) with
  | none => rfl
  | some found =>
    obtain ⟨body, escaped, after⟩ := found
    have hrest : before ++ text ++ m.opening ++ body ++ (m.closing ++ after) =
        before ++ text ++ c :: cs := by
      rw [eq_of_close h.1 hclose]
      simp only [List.append_assoc]
    have hbody := slice?_append (before ++ text ++ m.opening) body (m.closing ++ after)
    rw [hrest, String.utf8Len_append (before ++ text) m.opening] at hbody
    show (back? (utf8Len (before ++ text ++ m.opening ++ body ++ m.closing)) _).bind _ = _
    rw [back?_append]
    show (slice? _ _ _).bind _ = _
    rw [hbody]
    rfl

end

/-- From a place on which `before ++ text` ends, where `before` has been cut. -/
theorem cut?_eq_cut {limit : Nat} {escaped : Bool} (rounds : Nat) (found : List Segment)
    (before text rest : Text) (he : escapedAfter false (before ++ text) = escaped)
    (hlimit : 2 * utf8Len rest < limit) (hrounds : utf8Len rest ≤ rounds) :
    cut? m limit (before ++ text ++ rest) (rounds + 1) (utf8Len (before ++ text)) (utf8Len before)
        found =
      some ((cut m escaped rest).map fun segments =>
        found ++ text.foldr consLiteral segments) := by
  have hpos := utf8Len_opening_pos hm
  fun_induction cut m escaped rest generalizing rounds found before text with
  | case1 escaped =>
    have hend := literals?_append before text []
    rw [List.append_nil] at hend
    rw [List.append_nil, cut?, if_pos le_rfl, hend, Option.map_some, foldr_consLiteral_nil]
    rfl
  | case2 escaped c cs hopen hclose =>
    obtain ⟨hopens, rfl⟩ := hopen
    rw [cut?_opening hm hlimit ⟨hopens, he⟩, hclose]
    rfl
  | case3 escaped c cs hopen body flag after hclose ih =>
    obtain ⟨hopens, rfl⟩ := hopen
    have hflag : escapedAfter false (before ++ text ++ m.opening ++ body ++ m.closing) = flag := by
      rw [tells m 1 _ _ body flag after hclose]
      simp only [escapedAfter_append, he]
    have hrest := eq_of_close hopens hclose
    have happend : before ++ text ++ m.opening ++ body ++ m.closing ++ after =
        before ++ text ++ c :: cs := by
      rw [hrest]
      simp only [List.append_assoc]
    have hsize : utf8Len m.opening + utf8Len after ≤ utf8Len (c :: cs) := by
      rw [hrest]
      simp only [String.utf8Len_append]
      omega
    obtain ⟨rounds, rfl⟩ : ∃ n, rounds = n + 1 := Nat.exists_eq_succ_of_ne_zero (by omega)
    have hnext := ih rounds (found ++ literals text ++ [.fragment body])
      (before ++ text ++ m.opening ++ body ++ m.closing) [] (by rw [List.append_nil, hflag])
      (by omega) (by omega)
    rw [List.append_nil, happend] at hnext
    rw [cut?_opening hm hlimit ⟨hopens, he⟩, hclose]
    refine hnext.trans ?_
    simp [foldr_consLiteral_fragment, Function.comp_def]
  | case4 escaped c cs hopen ih =>
    have hc := c.utf8Size_pos
    rw [String.utf8Len_cons] at hlimit hrounds
    obtain ⟨rounds, rfl⟩ : ∃ n, rounds = n + 1 := Nat.exists_eq_succ_of_ne_zero (by omega)
    have hnext := ih rounds found before (text ++ [c])
      (by rw [← List.append_assoc, escapedAfter_concat]) (by omega) (by omega)
    rw [← List.append_assoc, List.append_assoc _ [c] cs, List.singleton_append] at hnext
    rw [cut?_text hm (by rwa [he]), hnext]
    simp [Function.comp_def]

end

end Bytes

/-- Whatever the markers are, if the opening one is not empty, each loop of cutting by bytes ends
after no more than two rounds for each byte and one, and no slice goes backwards, out of the
template or to the inside of a character. The segments into which the template is cut give it
back. -/
theorem ofTemplate_lossless {m : Markers} (hm : m.opening ≠ []) (t : Text) :
    (∀ limit, 2 * String.utf8Len t < limit → Bytes.ofTemplate? m limit t = some (ofTemplate m t)) ∧
      ∀ segments, ofTemplate m t = some segments →
        segments.flatMap (spelling m) = t ∧ AreSeparated segments := by
  refine ⟨fun limit hlimit => ?_, fun segments h => lossless_of_cut h⟩
  obtain ⟨rounds, rfl⟩ : ∃ n, limit = n + 1 := Nat.exists_eq_succ_of_ne_zero (by omega)
  have hstart : escapedAfter false ([] ++ []) = false := rfl
  have hcut := Bytes.cut?_eq_cut hm rounds [] [] [] t hstart hlimit (by omega)
  rw [Bytes.ofTemplate?]
  refine hcut.trans ?_
  simp [ofTemplate]

/-- The closing marker is where the opening one starts, and a character of two bytes comes first. -/
theorem ofTemplate_lossless_overlapping :
    "<<".toList ≠ [] ∧ 2 * String.utf8Len "é<<a<b".toList < 15 ∧
      Bytes.ofTemplate? ⟨"<<".toList, "<".toList⟩ 15 "é<<a<b".toList =
        some (some [.literal "é".toList, .fragment "a".toList, .literal "b".toList]) ∧
      [.literal "é".toList, .fragment "a".toList, .literal "b".toList].flatMap
        (spelling ⟨"<<".toList, "<".toList⟩) = "é<<a<b".toList := by
  have hm : "<<".toList ≠ [] := by decide
  have hlimit : 2 * String.utf8Len "é<<a<b".toList < 15 := by decide
  have h := ofTemplate_lossless (m := ⟨"<<".toList, "<".toList⟩) hm "é<<a<b".toList
  have hbytes : Bytes.ofTemplate? ⟨"<<".toList, "<".toList⟩ 15 "é<<a<b".toList =
      some (some [.literal "é".toList, .fragment "a".toList, .literal "b".toList]) := by
    cbv
  have hcut := Option.some.inj ((h.1 15 hlimit).symm.trans hbytes)
  exact ⟨hm, hlimit, hbytes, (h.2 _ hcut).1⟩

end Countermand.Segment

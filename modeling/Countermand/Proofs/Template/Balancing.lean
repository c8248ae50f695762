import Countermand.Proofs.Template.Cutting

/-! Two different characters as markers. A template is read from left to right, and the depth of
the markers says where a fragment ends. Inside of a fragment an opening marker counts even after a
backslash. A reading for which it is text there finds other fragments, just if one of those that
it finds has such a marker in it. -/
namespace Countermand.Segment

/-- How far a template was read: the segments that are complete, the text behind these, how deep
in a fragment it stands, and whether it ends with a backslash. -/
structure Scan where
  segments : List Segment
  text : Text
  depth : Nat
  escaped : Bool

namespace Scan

def start : Scan := ⟨[], [], 0, false⟩

def enter (s : Scan) : Scan := ⟨s.segments ++ literals s.text, [], 1, false⟩

def leave (s : Scan) : Scan := ⟨s.segments ++ [.fragment s.text], [], 0, false⟩

def push (s : Scan) (c : Char) (depth : Nat) : Scan := ⟨s.segments, s.text ++ [c], depth, c == '\\'⟩

section
variable (o q : Char) (always : Bool)

/-- How a character inside of a fragment changes the depth. An opening marker after a backslash
counts only if it always does. -/
def rise (escaped : Bool) (c : Char) : Int :=
  if c = o ∧ (always = true ∨ escaped = false) then 1
  else if c = q ∧ escaped = false then -1
  else 0

def step (s : Scan) (c : Char) : Scan :=
  if s.depth = 0 then
    if c = o ∧ s.escaped = false then s.enter else s.push c 0
  else
    let depth := (s.depth + rise o q always s.escaped c).toNat
    if depth = 0 then s.leave else s.push c depth

def finish (s : Scan) : Option (List Segment) :=
  if s.depth = 0 then some (s.segments ++ literals s.text) else none

def segments? (t : Text) : Option (List Segment) := (t.foldl (step o q always) start).finish

end

variable {o q : Char} {always : Bool} {s : Scan} {c : Char}

theorem step_outside (h : s.depth = 0) :
    s.step o q always c = if c = o ∧ s.escaped = false then s.enter else s.push c 0 := by
  rw [step, if_pos h]

theorem step_inside (h : s.depth ≠ 0) :
    s.step o q always c =
      if (s.depth + rise o q always s.escaped c).toNat = 0 then s.leave
      else s.push c (s.depth + rise o q always s.escaped c).toNat := by
  rw [step, if_neg h]

theorem step_open (h : s.depth ≠ 0) (hc : c = o ∧ (always = true ∨ s.escaped = false)) :
    s.step o q always c = s.push c (s.depth + 1) := by
  rw [step_inside h, rise, if_pos hc]
  rfl

theorem step_close (h : s.depth ≠ 0) (ho : ¬(c = o ∧ (always = true ∨ s.escaped = false)))
    (hc : c = q ∧ s.escaped = false) :
    s.step o q always c = if s.depth = 1 then s.leave else s.push c (s.depth - 1) := by
  have hdepth : ((s.depth : Int) + -1).toNat = s.depth - 1 := by omega
  rw [step_inside h, rise, if_neg ho, if_pos hc, hdepth]
  by_cases hone : s.depth = 1
  · simp [hone]
  · have hne : s.depth - 1 ≠ 0 := by omega
    rw [if_neg hone, if_neg hne]

theorem step_text (h : s.depth ≠ 0) (ho : ¬(c = o ∧ (always = true ∨ s.escaped = false)))
    (hc : ¬(c = q ∧ s.escaped = false)) : s.step o q always c = s.push c s.depth := by
  rw [step_inside h, rise, if_neg ho, if_neg hc]
  simp [h]

end Scan

open Scan

/-- Read from inside of a fragment, a text comes out of it where the fragment is closed. -/
def ComesOut (o q : Char) (rest : Text) (s : Scan) : Prop :=
  (close ⟨[o], [q]⟩ s.depth s.escaped rest = none ∧ (rest.foldl (step o q true) s).depth ≠ 0) ∨
    ∃ body after, close ⟨[o], [q]⟩ s.depth s.escaped rest = some (body, false, after) ∧
      rest.foldl (step o q true) s =
        after.foldl (step o q true) ⟨s.segments ++ [.fragment (s.text ++ body)], [], 0, false⟩

theorem ComesOut.cons {o q c : Char} {rest : Text} {s : Scan} {depth : Nat}
    (h : ComesOut o q rest (s.push c depth)) (hstep : s.step o q true c = s.push c depth)
    (hclose : close ⟨[o], [q]⟩ s.depth s.escaped (c :: rest) =
      (close ⟨[o], [q]⟩ depth (c == '\\') rest).map fun (body, rest) => (c :: body, rest)) :
    ComesOut o q (c :: rest) s := by
  rw [ComesOut, List.foldl_cons, hstep, hclose]
  rcases h with ⟨hnone, hdepth⟩ | ⟨body, after, hsome, hfold⟩
  · left
    have hnone : close ⟨[o], [q]⟩ depth (c == '\\') rest = none := hnone
    exact ⟨by rw [hnone]; rfl, hdepth⟩
  · right
    have hsome : close ⟨[o], [q]⟩ depth (c == '\\') rest = some (body, false, after) := hsome
    refine ⟨c :: body, after, by rw [hsome]; rfl, ?_⟩
    rw [hfold]
    simp [push]

section
variable {o q : Char} (hne : o ≠ q) (ho : o ≠ '\\') (hq : q ≠ '\\')
include hne ho hq

theorem foldl_step_inside (rest : Text) (s : Scan) (hs : s.depth ≠ 0) : ComesOut o q rest s := by
  induction rest generalizing s with
  | nil => exact .inl ⟨by rw [close], hs⟩
  | cons c cs ih =>
    have hclose := close_character ho hq s.depth s.escaped c cs
    by_cases hopen : c = o
    · subst hopen
      apply (ih (s.push c (s.depth + 1)) (by simp [push])).cons
      · exact step_open hs ⟨rfl, .inl rfl⟩
      · rw [hclose, if_pos ⟨hne, rfl⟩, beq_eq_false_iff_ne.mpr ho]
    · have hnot : ¬(c = o ∧ (true = true ∨ s.escaped = false)) := fun h => hopen h.1
      rw [if_neg (fun h => hopen h.2)] at hclose
      by_cases hend : c = q ∧ s.escaped = false
      · rw [if_pos hend] at hclose
        by_cases hone : s.depth = 1
        · right
          rw [if_pos hone.le] at hclose
          refine ⟨[], cs, hclose, ?_⟩
          rw [List.foldl_cons, step_close hs hnot hend, if_pos hone, leave, List.append_nil]
        · have hdepth : (s.push c (s.depth - 1)).depth ≠ 0 := by
            show s.depth - 1 ≠ 0
            omega
          rw [if_neg (by omega)] at hclose
          apply (ih _ hdepth).cons
          · rw [step_close hs hnot hend, if_neg hone]
          · rw [hclose, hend.1, beq_eq_false_iff_ne.mpr hq]
      · rw [if_neg hend] at hclose
        exact (ih (s.push c s.depth) hs).cons (step_text hs hnot hend) hclose

theorem foldl_step_outside {escaped : Bool} (rest : Text) (s : Scan) (hs : s.depth = 0)
    (he : s.escaped = escaped) :
    (rest.foldl (step o q true) s).finish =
      (cut ⟨[o], [q]⟩ escaped rest).map fun segments =>
        s.segments ++ s.text.foldr consLiteral segments := by
  fun_induction cut ⟨[o], [q]⟩ escaped rest generalizing s with
  | case1 escaped =>
    simp [finish, hs, foldr_consLiteral_nil]
  | case2 escaped c cs hopen hnone =>
    have hmark : c = o ∧ s.escaped = false := ⟨opens_character.mp hopen.1, he.trans hopen.2⟩
    rw [escapedAfter_character ho] at hnone
    rw [List.foldl_cons, step_outside hs, if_pos hmark]
    rcases foldl_step_inside hne ho hq cs s.enter one_ne_zero with ⟨-, hdepth⟩ | ⟨_, _, hsome, -⟩
    · rw [finish, if_neg hdepth]
      rfl
    · exact absurd (hnone.symm.trans hsome) (by simp)
  | case3 escaped c cs hopen body flag after hclose ih =>
    have hmark : c = o ∧ s.escaped = false := ⟨opens_character.mp hopen.1, he.trans hopen.2⟩
    rw [escapedAfter_character ho] at hclose
    rw [List.foldl_cons, step_outside hs, if_pos hmark]
    rcases foldl_step_inside hne ho hq cs s.enter one_ne_zero with
      ⟨hnone, -⟩ | ⟨_, _, hsome, hfold⟩
    · exact absurd (hclose.symm.trans hnone) (by simp)
    · obtain ⟨rfl, rfl, rfl⟩ : _ = _ ∧ _ = _ ∧ _ = _ := by
        simpa using hclose.symm.trans hsome
      rw [hfold, ih _ rfl rfl]
      simp [enter, foldr_consLiteral_fragment, Function.comp_def]
  | case4 escaped c cs hopen ih =>
    have hmark : ¬(c = o ∧ s.escaped = false) :=
      fun h => hopen ⟨opens_character.mpr h.1, he.symm.trans h.2⟩
    rw [List.foldl_cons, step_outside hs, if_neg hmark, ih (s.push c 0) rfl rfl]
    simp [push, Function.comp_def]

theorem ofTemplate_eq_segments (t : Text) : ofTemplate ⟨[o], [q]⟩ t = segments? o q true t := by
  rw [segments?, foldl_step_outside hne ho hq t start rfl rfl, ofTemplate]
  cases h : cut ⟨[o], [q]⟩ false t <;> simp [start, h]

end

section
variable {o q : Char} {always escaped : Bool} {c : Char} {s : Scan}

theorem eq_concat_of_escapedAfter {t : Text} (h : escapedAfter false t = true) :
    ∃ before, t = before ++ ['\\'] := by
  rcases List.eq_nil_or_concat' t with rfl | ⟨before, c, rfl⟩
  · exact absurd h (by decide)
  · rw [escapedAfter_concat, beq_iff_eq] at h
    exact ⟨before, by rw [h]⟩

def gain (o q : Char) (always escaped : Bool) : Text → Int
  | [] => 0
  | c :: cs => rise o q always escaped c + gain o q always (c == '\\') cs

theorem gain_append (escaped : Bool) (t more : Text) :
    gain o q always escaped (t ++ more) =
      gain o q always escaped t + gain o q always (escapedAfter escaped t) more := by
  induction t generalizing escaped with
  | nil => simp [gain, escapedAfter]
  | cons c t ih =>
    have hescaped : escapedAfter escaped (c :: t) = escapedAfter (c == '\\') t :=
      escapedAfter_append escaped [c] t
    rw [List.cons_append, gain, gain, ih, hescaped, Int.add_assoc]

theorem gain_concat (escaped : Bool) (t : Text) (c : Char) :
    gain o q always escaped (t ++ [c]) =
      gain o q always escaped t + rise o q always (escapedAfter escaped t) c := by
  rw [gain_append, gain, gain, Int.add_zero]

theorem neg_one_le_rise (o q : Char) (always escaped : Bool) (c : Char) :
    -1 ≤ rise o q always escaped c := by
  unfold rise
  split_ifs <;> omega

theorem eq_of_rise_neg (h : rise o q always escaped c < 0) : c = q := by
  unfold rise at h
  split_ifs at h with ho hq
  · omega
  · exact hq.1
  · omega

theorem rise_le (o q : Char) (escaped : Bool) (c : Char) :
    rise o q false escaped c ≤ rise o q true escaped c := by
  unfold rise
  split_ifs <;> grind

theorem gain_le (escaped : Bool) (t : Text) :
    gain o q false escaped t ≤ gain o q true escaped t := by
  induction t generalizing escaped with
  | nil => exact le_rfl
  | cons c t ih =>
    rw [gain, gain]
    exact Int.add_le_add (rise_le o q escaped c) (ih _)

theorem gain_lt (escaped : Bool) {t : Text} (h : ['\\', o] <:+: t) :
    gain o q false escaped t < gain o q true escaped t := by
  obtain ⟨before, after, rfl⟩ := h
  have hmarker : rise o q false true o < rise o q true true o := by simp [rise]
  have hbefore := gain_le (o := o) (q := q) escaped before
  have hbackslash := rise_le o q (escapedAfter escaped before) '\\'
  have hafter := gain_le (o := o) (q := q) (o == '\\') after
  simp only [List.append_assoc, List.cons_append, List.nil_append, gain_append, gain,
    beq_self_eq_true]
  omega

namespace Scan

/-- What has been read adds up: complete fragments return to where they start, and the text of one
that is not complete leads to the depth. -/
structure AddsUp (o q : Char) (always : Bool) (s : Scan) : Prop where
  escaped : s.escaped = escapedAfter false s.text
  fragments : ∀ body, .fragment body ∈ s.segments → gain o q always false body = 0
  depth : s.depth ≠ 0 → 1 + gain o q always false s.text = s.depth

theorem addsUp_start : start.AddsUp o q always :=
  ⟨rfl, by simp [start], fun h => absurd rfl h⟩

theorem fragment_notMem_literals (body t : Text) : .fragment body ∉ literals t := by
  unfold literals
  split_ifs <;> simp

theorem AddsUp.step (h : s.AddsUp o q always) (c : Char) :
    (s.step o q always c).AddsUp o q always := by
  have hescaped (depth : Nat) :
      (s.push c depth).escaped = escapedAfter false (s.push c depth).text :=
    (escapedAfter_concat false s.text c).symm
  by_cases hs : s.depth = 0
  · rw [step_outside hs]
    split_ifs with hc
    · refine ⟨rfl, fun body hbody => ?_, fun _ => rfl⟩
      rcases List.mem_append.mp hbody with hmem | hmem
      · exact h.fragments body hmem
      · exact absurd hmem (fragment_notMem_literals body s.text)
    · exact ⟨hescaped 0, h.fragments, fun hdepth => absurd rfl hdepth⟩
  · have hdepth := h.depth hs
    have hrise := neg_one_le_rise o q always s.escaped c
    rw [step_inside hs]
    split_ifs with hzero
    · refine ⟨rfl, fun body hbody => ?_, fun hne => absurd rfl hne⟩
      rcases List.mem_append.mp hbody with hmem | hmem
      · exact h.fragments body hmem
      · obtain rfl : body = s.text := by simpa using hmem
        omega
    · refine ⟨hescaped _, h.fragments, fun _ => ?_⟩
      show 1 + gain o q always false (s.text ++ [c]) = _
      rw [gain_concat, ← h.escaped]
      show _ = ((s.depth + rise o q always s.escaped c).toNat : Int)
      omega

theorem addsUp_foldl (o q : Char) (always : Bool) (t : Text) :
    (t.foldl (Scan.step o q always) start).AddsUp o q always := by
  induction t using List.reverseRecOn with
  | nil => exact addsUp_start
  | append_singleton t c ih =>
    rw [List.foldl_concat]
    exact ih.step c

theorem gain_of_segments? {t : Text} {segments : List Segment}
    (h : segments? o q always t = some segments) {body : Text} (hbody : .fragment body ∈ segments) :
    gain o q always false body = 0 := by
  rw [segments?, finish] at h
  split_ifs at h with hs
  · obtain rfl := Option.some.inj h
    rcases List.mem_append.mp hbody with hmem | hmem
    · exact (addsUp_foldl o q always t).fragments body hmem
    · exact absurd hmem (fragment_notMem_literals body _)

/-- An opening marker after a backslash stands in a fragment. -/
def Hides (o : Char) (s : Scan) : Prop :=
  (∃ body, .fragment body ∈ s.segments ∧ ['\\', o] <:+: body) ∨
    s.depth ≠ 0 ∧ ['\\', o] <:+: s.text

theorem mem_segments_step {segment : Segment} (h : segment ∈ s.segments) :
    segment ∈ (s.step o q always c).segments := by
  by_cases hs : s.depth = 0
  · rw [step_outside hs]
    split_ifs
    · exact List.mem_append_left _ h
    · exact h
  · rw [step_inside hs]
    split_ifs
    · exact List.mem_append_left _ h
    · exact h

theorem Hides.step (h : s.Hides o) (c : Char) : (s.step o q always c).Hides o := by
  rcases h with ⟨body, hmem, hbody⟩ | ⟨hs, htext⟩
  · exact .inl ⟨body, mem_segments_step hmem, hbody⟩
  · rw [step_inside hs]
    split_ifs with hzero
    · left
      exact ⟨s.text, by simp [leave], htext⟩
    · right
      exact ⟨hzero, htext.trans (List.infix_append' [] s.text [c])⟩

theorem step_eq_or_hides (h : s.escaped = escapedAfter false s.text) (c : Char) :
    s.step o q true c = s.step o q false c ∨ (s.step o q false c).Hides o := by
  by_cases hs : s.depth = 0
  · left
    rw [step_outside hs, step_outside hs]
  · by_cases hc : c = o ∧ s.escaped = true
    · obtain ⟨rfl, hescaped⟩ := hc
      have hstep : s.step c q false c = s.push c s.depth :=
        step_text hs (by simp [hescaped]) (by simp [hescaped])
      obtain ⟨before, htext⟩ := eq_concat_of_escapedAfter (h ▸ hescaped)
      right
      right
      rw [hstep]
      exact ⟨hs, before, [], by simp [push, htext]⟩
    · left
      have hrise : rise o q true s.escaped c = rise o q false s.escaped c := by
        unfold rise
        grind
      rw [Scan.step, Scan.step, hrise]

theorem eq_or_hides (o q : Char) (t : Text) :
    t.foldl (Scan.step o q true) start = t.foldl (Scan.step o q false) start ∨
      (t.foldl (Scan.step o q false) start).Hides o := by
  induction t using List.reverseRecOn with
  | nil => exact .inl rfl
  | append_singleton t c ih =>
    rw [List.foldl_concat, List.foldl_concat]
    -- Until the first such marker the readings agree; from then on it stands in a fragment.
    rcases ih with heq | hhides
    · rw [heq]
      exact step_eq_or_hides (addsUp_foldl o q false t).escaped c
    · exact .inr (hhides.step c)

theorem depth_step : (s.step o q always c).depth =
    if s.depth = 0 then if c = o ∧ s.escaped = false then 1 else 0
    else (s.depth + rise o q always s.escaped c).toNat := by
  by_cases hs : s.depth = 0
  · rw [step_outside hs, if_pos hs]
    split_ifs <;> rfl
  · rw [step_inside hs, if_neg hs]
    split_ifs with hzero
    · exact hzero.symm
    · rfl

theorem escaped_step (ho : o ≠ '\\') (hq : q ≠ '\\') :
    (s.step o q always c).escaped = (c == '\\') := by
  by_cases hs : s.depth = 0
  · rw [step_outside hs]
    split_ifs with hc
    · exact (beq_eq_false_iff_ne.mpr (hc.1 ▸ ho)).symm
    · rfl
  · rw [step_inside hs]
    split_ifs with hzero
    · have hneg : rise o q always s.escaped c < 0 := by omega
      have hc := eq_of_rise_neg hneg
      exact (beq_eq_false_iff_ne.mpr (hc ▸ hq)).symm
    · rfl

theorem depth_step_le {strict loose : Scan} (he : strict.escaped = loose.escaped)
    (hd : strict.depth ≤ loose.depth) (c : Char) :
    (strict.step o q false c).depth ≤ (loose.step o q true c).depth := by
  have hrise := rise_le o q loose.escaped c
  rw [depth_step, depth_step, he]
  by_cases hloose : loose.depth = 0
  · rw [if_pos hloose, if_pos (by omega)]
  · rw [if_neg hloose]
    by_cases hstrict : strict.depth = 0
    · rw [if_pos hstrict]
      split_ifs with hc
      · have : rise o q true loose.escaped c = 1 := if_pos ⟨hc.1, .inl rfl⟩
        omega
      · exact Nat.zero_le _
    · rw [if_neg hstrict]
      omega

/-- The reading for which more markers count is never less deep. -/
theorem depth_foldl_le (ho : o ≠ '\\') (hq : q ≠ '\\') (t : Text) :
    (t.foldl (Scan.step o q false) start).escaped = (t.foldl (Scan.step o q true) start).escaped ∧
      (t.foldl (Scan.step o q false) start).depth ≤ (t.foldl (Scan.step o q true) start).depth := by
  induction t using List.reverseRecOn with
  | nil => exact ⟨rfl, le_rfl⟩
  | append_singleton t c ih =>
    obtain ⟨hescaped, hdepth⟩ := ih
    rw [List.foldl_concat, List.foldl_concat, escaped_step ho hq, escaped_step ho hq]
    exact ⟨rfl, depth_step_le hescaped hdepth c⟩

end Scan
end

/-- Markers are balanced in the fragments, where an opening marker counts even after a backslash.
If it were text there, the template would be cut in the same way, unless a fragment that is found
then has such a marker in it. -/
theorem ofTemplate_balanced {o q : Char} (hne : o ≠ q) (ho : o ≠ '\\') (hq : q ≠ '\\') (t : Text) :
    ofTemplate ⟨[o], [q]⟩ t = segments? o q true t ∧
      (ofTemplate ⟨[o], [q]⟩ t = segments? o q false t ↔
        ∀ segments, segments? o q false t = some segments →
          ∀ body, .fragment body ∈ segments → ¬['\\', o] <:+: body) := by
  have hread := ofTemplate_eq_segments hne ho hq t
  refine ⟨hread, fun heq segments hsegments body hbody hinfix => ?_, fun h => ?_⟩
  -- A fragment of both readings adds up to nothing in both, which such a marker rules out.
  · have hloose := gain_of_segments? (hread.symm.trans (heq.trans hsegments)) hbody
    have hstrict := gain_of_segments? hsegments hbody
    have hlt := gain_lt (q := q) false hinfix
    omega
  · rw [hread]
    by_cases hs : (t.foldl (step o q false) start).depth = 0
    · have hsome : segments? o q false t = some _ := if_pos hs
      rcases eq_or_hides o q t with heq | ⟨body, hmem, hbody⟩ | ⟨hdepth, -⟩
      · rw [segments?, heq, segments?]
      · exact absurd hbody (h _ hsome body (List.mem_append_left _ hmem))
      · exact absurd hs hdepth
    · have hle := (depth_foldl_le ho hq t).2
      rw [segments?, segments?, finish, finish, if_neg hs, if_neg (by omega)]

def nested : Text := "a\\<b<$A ? <c>\\>d : \"e\">".toList

theorem ofTemplate_balanced_nested :
    '<' ≠ '>' ∧ '<' ≠ '\\' ∧ '>' ≠ '\\' ∧
      ofTemplate ⟨['<'], ['>']⟩ nested =
        some [.literal "a\\<b".toList, .fragment "$A ? <c>\\>d : \"e\"".toList] ∧
      ofTemplate ⟨['<'], ['>']⟩ nested = segments? '<' '>' false nested := by
  have hne : '<' ≠ '>' := by decide
  have ho : '<' ≠ '\\' := by decide
  have hq : '>' ≠ '\\' := by decide
  have h := ofTemplate_balanced hne ho hq nested
  have hstrict : segments? '<' '>' false nested =
      some [.literal "a\\<b".toList, .fragment "$A ? <c>\\>d : \"e\"".toList] := by decide
  have heq := h.2.mpr (by
    intro segments hsegments body hbody
    obtain rfl := Option.some.inj (hstrict.symm.trans hsegments)
    obtain rfl : body = "$A ? <c>\\>d : \"e\"".toList := by simpa using hbody
    decide)
  exact ⟨hne, ho, hq, heq.trans hstrict, heq⟩

/-- The marker after the backslash counts, so that the fragment has no end. -/
theorem opening_after_backslash :
    ofTemplate ⟨['<'], ['>']⟩ "<'a\\<b'>".toList = none ∧
      segments? '<' '>' false "<'a\\<b'>".toList = some [.fragment "'a\\<b'".toList] := by
  rw [ofTemplate_eq_segments (by decide) (by decide) (by decide)]
  decide

end Countermand.Segment

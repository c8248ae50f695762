import Countermand.Proofs.Template.Cutting

/-! One character as both markers. The markers without a backslash before them come in pairs: a
fragment stands between the first and the second, between the third and the fourth, and so on, and
what is left around the pairs is literal. -/
namespace Countermand.Segment

def IsMark (q : Char) (t : Text) (place : Nat) : Prop :=
  t[place]? = some q ∧ (t.take place).getLast? ≠ some '\\'

instance (q : Char) (t : Text) (place : Nat) : Decidable (IsMark q t place) :=
  inferInstanceAs (Decidable (_ ∧ _))

/-- The places of the markers, in their order. -/
def marks (q : Char) (t : Text) : List Nat := (List.range t.length).filter (IsMark q t)

/-- The texts from a start up to the first place, between the places, and behind the last one. -/
def pieces (t : Text) (start : Nat) : List Nat → List Text
  | [] => [t.drop start]
  | place :: places => (t.take place).drop start :: pieces t (place + 1) places

/-- Of numbered pieces the odd ones are fragments; the even ones are literal unless empty. -/
def ofPiece : Text × Nat → Option Segment
  | (text, number) =>
    if number % 2 = 1 then some (.fragment text)
    else if text = [] then none
    else some (.literal text)

def ofPieces (texts : List Text) : List Segment := texts.zipIdx.filterMap ofPiece

theorem length_pieces (t : Text) (start : Nat) (places : List Nat) :
    (pieces t start places).length = places.length + 1 := by
  induction places generalizing start with
  | nil => rfl
  | cons place places ih => rw [pieces, List.length_cons, ih, List.length_cons]

theorem zipIdx_ofPiece (texts : List Text) (number : Nat) :
    (texts.zipIdx (number + 2)).filterMap ofPiece = (texts.zipIdx number).filterMap ofPiece := by
  induction texts generalizing number with
  | nil => rfl
  | cons text texts ih =>
    have hpiece : ofPiece (text, number + 2) = ofPiece (text, number) := by simp [ofPiece]
    rw [List.zipIdx_cons, List.zipIdx_cons, List.filterMap_cons, List.filterMap_cons, hpiece,
      show number + 2 + 1 = number + 1 + 2 by omega, ih]

theorem ofPieces_cons_cons (text body : Text) (texts : List Text) :
    ofPieces (text :: body :: texts) = ofPieces [text] ++ .fragment body :: ofPieces texts := by
  by_cases h : text = [] <;> simp [ofPieces, ofPiece, h, ← zipIdx_ofPiece texts 0]

theorem consLiteral_ofPieces (c : Char) {texts : List Text} (h : texts ≠ []) :
    consLiteral c (ofPieces texts) = ofPieces (Text.consFirst c texts) := by
  have hone (text : Text) (segments : List Segment) (hm : StartsMarked segments) :
      consLiteral c (ofPieces [text] ++ segments) = ofPieces [c :: text] ++ segments := by
    by_cases htext : text = []
    · simpa [ofPieces, ofPiece, htext] using consLiteral_eq c hm
    · simp [ofPieces, ofPiece, htext, consLiteral]
  cases texts with
  | nil => exact absurd rfl h
  | cons text rest =>
    cases rest with
    | nil => simpa [Text.consFirst] using hone text [] trivial
    | cons body texts =>
      rw [Text.consFirst, ofPieces_cons_cons, ofPieces_cons_cons]
      exact hone text _ trivial

def splitMarks (q : Char) (escaped : Bool) : Text → List Text
  | [] => [[]]
  | c :: cs =>
    if c = q ∧ escaped = false then [] :: splitMarks q false cs
    else Text.consFirst c (splitMarks q (c == '\\') cs)

theorem splitMarks_ne_nil (q : Char) (escaped : Bool) (t : Text) : splitMarks q escaped t ≠ [] := by
  cases t with
  | nil => simp [splitMarks]
  | cons c cs =>
    rw [splitMarks]
    split_ifs
    · simp
    · cases splitMarks q (c == '\\') cs <;> simp [Text.consFirst]

theorem isMark_append {q c : Char} {before after : Text} :
    IsMark q (before ++ c :: after) before.length ↔ c = q ∧ before.getLast? ≠ some '\\' := by
  simp [IsMark]

theorem pieces_consFirst {before after : Text} {c : Char} {places : List Nat}
    (h : ∀ place ∈ places, before.length < place) :
    pieces (before ++ c :: after) before.length places =
      Text.consFirst c (pieces (before ++ c :: after) (before.length + 1) places) := by
  cases places with
  | nil => simp [pieces, Text.consFirst, List.drop_append]
  | cons place places =>
    obtain ⟨more, rfl⟩ : ∃ more, place = before.length + (more + 1) :=
      ⟨place - before.length - 1, by have := h place List.mem_cons_self; omega⟩
    simp [pieces, Text.consFirst, List.take_append, List.drop_append]

theorem splitMarks_eq_pieces {q : Char} (hq : q ≠ '\\') (before rest : Text) :
    splitMarks q (before.getLast? == some '\\') rest =
      pieces (before ++ rest) before.length
        ((List.range' before.length rest.length).filter (IsMark q (before ++ rest))) := by
  induction rest generalizing before with
  | nil => simp [splitMarks, pieces]
  | cons c cs ih =>
    have hlast : ((before ++ [c]).getLast? == some '\\') = (c == '\\') := by simp
    have hsplit := ih (before ++ [c])
    rw [hlast, List.append_assoc, List.singleton_append, List.length_append,
      List.length_singleton] at hsplit
    rw [splitMarks, List.length_cons, List.range'_succ, hsplit]
    by_cases hmark : IsMark q (before ++ c :: cs) before.length
    · obtain ⟨rfl, hlast⟩ := isMark_append.mp hmark
      rw [List.filter_cons_of_pos (by simpa using hmark), pieces, ← hsplit,
        beq_eq_false_iff_ne.mpr hq, if_pos ⟨rfl, beq_eq_false_iff_ne.mpr hlast⟩, List.drop_take,
        Nat.sub_self, List.take_zero]
    · have hnot : ¬(c = q ∧ (before.getLast? == some '\\') = false) := by
        rw [beq_eq_false_iff_ne]
        exact fun h => hmark (isMark_append.mpr h)
      rw [List.filter_cons_of_neg (by simpa using hmark), if_neg hnot, pieces_consFirst]
      intro place hplace
      exact (List.mem_range'_1.mp (List.mem_filter.mp hplace).1).1

section
variable {q : Char} (hq : q ≠ '\\')
include hq

theorem close_splitMarks (escaped : Bool) (rest : Text) :
    (close ⟨[q], [q]⟩ 1 escaped rest = none ∧ ∃ text, splitMarks q escaped rest = [text]) ∨
      ∃ body after, close ⟨[q], [q]⟩ 1 escaped rest = some (body, false, after) ∧
        splitMarks q escaped rest = body :: splitMarks q false after := by
  induction rest generalizing escaped with
  | nil => exact .inl ⟨by rw [close], [], rfl⟩
  | cons c cs ih =>
    rw [close_character hq hq, if_neg (fun h => h.1 rfl), splitMarks]
    by_cases hmark : c = q ∧ escaped = false
    · rw [if_pos hmark, if_pos hmark, if_pos le_rfl]
      exact .inr ⟨[], cs, rfl, rfl⟩
    · rw [if_neg hmark, if_neg hmark]
      rcases ih (c == '\\') with ⟨hclose, text, hsplit⟩ | ⟨body, after, hclose, hsplit⟩
      · exact .inl ⟨by rw [hclose]; rfl, c :: text, by rw [hsplit]; rfl⟩
      · exact .inr ⟨c :: body, after, by rw [hclose]; rfl, by rw [hsplit]; rfl⟩

/-- The segments of the rest of a template are its pieces, an odd number of them. -/
theorem cut_splitMarks (escaped : Bool) (rest : Text) :
    cut ⟨[q], [q]⟩ escaped rest =
      if Odd (splitMarks q escaped rest).length then some (ofPieces (splitMarks q escaped rest))
      else none := by
  fun_induction cut ⟨[q], [q]⟩ escaped rest with
  | case1 escaped => simp [splitMarks, ofPieces, ofPiece]
  | case2 escaped c cs hopen hclose =>
    have hmark : c = q ∧ escaped = false := ⟨opens_character.mp hopen.1, hopen.2⟩
    rw [escapedAfter_character hq] at hclose
    rcases close_splitMarks hq false cs with ⟨-, text, hsplit⟩ | ⟨body, after, hsome, -⟩
    · have heven : ¬Odd [[], text].length := by simp [Nat.odd_iff]
      rw [splitMarks, if_pos hmark, hsplit, if_neg heven]
    · exact absurd (hclose.symm.trans hsome) (by simp)
  | case3 escaped c cs hopen body flag after hclose ih =>
    have hmark : c = q ∧ escaped = false := ⟨opens_character.mp hopen.1, hopen.2⟩
    rw [escapedAfter_character hq] at hclose
    rcases close_splitMarks hq false cs with ⟨hnone, -⟩ | ⟨_, _, hsome, hsplit⟩
    · exact absurd (hclose.symm.trans hnone) (by simp)
    · obtain ⟨rfl, rfl, rfl⟩ : _ = _ ∧ _ = _ ∧ _ = _ := by
        simpa using hclose.symm.trans hsome
      have hodd : Odd ([] :: body :: splitMarks q false after).length ↔
          Odd (splitMarks q false after).length := by
        simp [Nat.odd_add_one]
      rw [splitMarks, if_pos hmark, hsplit, ofPieces_cons_cons, ih]
      simp only [hodd]
      split_ifs <;> rfl
  | case4 escaped c cs hopen ih =>
    have hmark : ¬(c = q ∧ escaped = false) := fun h => hopen ⟨opens_character.mpr h.1, h.2⟩
    have hlength : (Text.consFirst c (splitMarks q (c == '\\') cs)).length =
        (splitMarks q (c == '\\') cs).length := by
      cases h : splitMarks q (c == '\\') cs with
      | nil => exact absurd h (splitMarks_ne_nil q _ cs)
      | cons text texts => rfl
    rw [splitMarks, if_neg hmark, ih, hlength, ← consLiteral_ofPieces c (splitMarks_ne_nil q _ cs)]
    split_ifs <;> rfl

/-- A template cannot be cut just if the number of its markers is odd. Otherwise the texts between
them are in turn literal and fragments, and empty literal texts are left out. -/
theorem ofTemplate_marks (t : Text) :
    (ofTemplate ⟨[q], [q]⟩ t = none ↔ Odd (marks q t).length) ∧
      ∀ segments, ofTemplate ⟨[q], [q]⟩ t = some segments →
        segments = (pieces t 0 (marks q t)).zipIdx.filterMap ofPiece := by
  have hsplit : splitMarks q false t = pieces t 0 (marks q t) := by
    rw [marks, List.range_eq_range']
    exact splitMarks_eq_pieces hq [] t
  have hodd : Odd (pieces t 0 (marks q t)).length ↔ ¬Odd (marks q t).length := by
    rw [length_pieces, Nat.odd_add_one]
  rw [ofTemplate, cut_splitMarks hq, hsplit]
  simp only [hodd]
  by_cases h : Odd (marks q t).length
  · simp [h]
  · simp [h, ofPieces, eq_comm]

end

/-- A marker behind a backslash, two pairs side by side and a letter of two bytes. -/
def offer : Text := "50\\% off% $A %%é%".toList

theorem ofTemplate_marks_offer :
    '%' ≠ '\\' ∧ marks '%' offer = [8, 13, 14, 16] ∧
      ofTemplate .percent offer =
        some [.literal "50\\% off".toList, .fragment " $A ".toList, .fragment "é".toList] := by
  have hq : '%' ≠ '\\' := by decide
  have hmarks : marks '%' offer = [8, 13, 14, 16] := by decide
  obtain ⟨hnone, hsome⟩ := ofTemplate_marks hq offer
  rw [hmarks] at hnone hsome
  refine ⟨hq, hmarks, ?_⟩
  cases h : ofTemplate .percent offer with
  | none => exact absurd (hnone.mp h) (by decide)
  | some segments => rw [hsome segments h]; decide

end Countermand.Segment

import Mathlib
import Countermand.Text.Words

/-! What splitting does to a text that is put behind a word: which texts come back as one word, and
what becomes of the others. No splitting makes a text longer, and only characters that mean
themselves are kept without a loss. -/
namespace Countermand.Text
open WordPlace

namespace WordPlace

def IsBare (c : Char) : Prop := separates c = false ∧ within c = .bare

instance (c : Char) : Decidable (IsBare c) := inferInstanceAs (Decidable (_ ∧ _))

theorem next_bare {c : Char} (h : IsBare c) : next c .bare = .bare := by
  have hn : next c .bare = within c := if_neg (by simp [h.1])
  rw [hn, h.2]

theorem next_between {c : Char} (h : IsBare c) (hc : c ≠ '#') : next c .between = .bare := by
  have hn : next c .between = within c := by simp [next, h.1, hc]
  rw [hn, h.2]

theorem added_bare {c : Char} (h : IsBare c) : added c .bare = [c] := if_pos h.2

theorem added_between {c : Char} (h : IsBare c) : added c .between = [c] := if_pos h.2

def contribution (c : Char) (place : WordPlace) : Text :=
  if (place.next c).inWord then place.added c else []

/-- A backslash between double quotes is kept only once the character after it is known. -/
def credit : WordPlace → Nat
  | .doubleEscape => 1
  | _ => 0

@[simp] theorem credit_within (c : Char) : (within c).credit = 0 := by
  grind [within, credit]

theorem contribution_cases {place : WordPlace} (hp : place = .between ∨ place = .bare) (c : Char) :
    (IsBare c ∧ (place = .between → c ≠ '#') ∧ place.next c = .bare ∧ contribution c place = [c]) ∨
      (contribution c place = [] ∧ (place.next c).credit = 0) := by
  by_cases hs : separates c
  · right
    rcases hp with rfl | rfl <;> simp [contribution, next, hs, inWord, credit]
  · have hs : separates c = false := by simpa using hs
    by_cases hb : within c = .bare
    · have hc : IsBare c := ⟨hs, hb⟩
      rcases hp with rfl | rfl
      · by_cases hn : c = '#'
        · right
          simp [contribution, next, hn, inWord, credit, separates]
        · left
          refine ⟨hc, fun _ => hn, next_between hc hn, ?_⟩
          rw [contribution, next_between hc hn, added_between hc]
          rfl
      · left
        refine ⟨hc, by simp, next_bare hc, ?_⟩
        rw [contribution, next_bare hc, added_bare hc]
        rfl
    · right
      rcases hp with rfl | rfl
      · by_cases hn : c = '#'
        · simp [contribution, next, hn, inWord, credit, separates]
        · simp [contribution, next, added, hs, hn, hb]
      · simp [contribution, next, added, hs, hb]

/-- A character adds itself at most, and with it a backslash that was not settled before. -/
theorem contribution_le (c : Char) (place : WordPlace) :
    (contribution c place).length + (place.next c).credit ≤ 1 + place.credit := by
  have hw := credit_within c
  cases place with
  | between | bare | comment => grind [contribution, next, added, credit, inWord]
  | bareEscape | singleQuoted => grind [contribution, next, added, credit, inWord]
  | doubleQuoted | doubleEscape => grind [contribution, next, added, credit, inWord]

end WordPlace

variable {t : Text} {words : List Text}

theorem flatten_foldr_consFirst (added : Text) (words : List Text) :
    (added.foldr consFirst words).flatten = added ++ words.flatten := by
  induction added with
  | nil => rfl
  | cons c added ih =>
    have hc : ∀ ws : List Text, (consFirst c ws).flatten = c :: ws.flatten := by
      intro ws
      cases ws <;> rfl
    rw [List.foldr_cons, hc, ih, List.cons_append]

/-- The characters of the words are what the characters of the text contribute. -/
theorem flatten_wordsFrom_cons {place : WordPlace} {c : Char}
    (h : wordsFrom place (c :: t) = some words) :
    ∃ rest, wordsFrom (place.next c) t = some rest ∧
      words.flatten = contribution c place ++ rest.flatten := by
  rw [wordsFrom, Option.map_eq_some_iff] at h
  obtain ⟨rest, hr, rfl⟩ := h
  refine ⟨rest, hr, ?_⟩
  unfold contribution
  split
  · exact flatten_foldr_consFirst _ _
  · split <;> rfl

theorem length_flatten_le {place : WordPlace} (h : wordsFrom place t = some words) :
    words.flatten.length ≤ t.length + place.credit := by
  induction t generalizing place words with
  | nil =>
    have hw : words.flatten = [] := by
      rw [wordsFrom] at h
      cases place <;> simp [last?] at h <;> subst h <;> rfl
    rw [hw]
    exact Nat.zero_le _
  | cons c t ih =>
    obtain ⟨rest, hr, hw⟩ := flatten_wordsFrom_cons h
    have hrest := ih hr
    have hc := contribution_le c place
    rw [hw, List.length_append, List.length_cons]
    omega

theorem bare_of_length_flatten_cons {place : WordPlace} {c : Char}
    (hp : place = .between ∨ place = .bare) (h : wordsFrom place (c :: t) = some words)
    (hl : words.flatten.length = (c :: t).length) :
    (IsBare c ∧ (place = .between → c ≠ '#')) ∧
      ∃ rest, wordsFrom .bare t = some rest ∧ rest.flatten.length = t.length := by
  obtain ⟨rest, hr, hw⟩ := flatten_wordsFrom_cons h
  rcases contribution_cases hp c with ⟨hc, hn, hbare, hkept⟩ | ⟨hlost, hcredit⟩
  · refine ⟨⟨hc, hn⟩, rest, hbare ▸ hr, ?_⟩
    rw [hw, hkept, List.singleton_append, List.length_cons, List.length_cons] at hl
    exact Nat.succ.inj hl
  · have hrest := length_flatten_le hr
    rw [hw, hlost, List.nil_append, List.length_cons] at hl
    omega

theorem bare_of_length_flatten (h : wordsFrom .bare t = some words)
    (hl : words.flatten.length = t.length) : ∀ c ∈ t, IsBare c := by
  induction t generalizing words with
  | nil => simp
  | cons c t ih =>
    obtain ⟨⟨hc, -⟩, rest, hr, hrest⟩ := bare_of_length_flatten_cons (.inr rfl) h hl
    intro d hd
    rcases List.mem_cons.mp hd with rfl | hd
    · exact hc
    · exact ih hr hrest d hd

/-- A text that is one word as it stands: it has no blank, quote or backslash, and is no comment. -/
def IsWord (t : Text) : Prop := t ≠ [] ∧ t.head? ≠ some '#' ∧ ∀ c ∈ t, IsBare c

theorem wordsFrom_bare_append (h : ∀ c ∈ t, IsBare c) (rest : Text) :
    wordsFrom .bare (t ++ rest) = (wordsFrom .bare rest).map (t.foldr consFirst ·) := by
  induction t with
  | nil => simp
  | cons c t ih =>
    have hc := h c (by simp)
    rw [List.cons_append, wordsFrom, next_bare hc, ih fun d hd => h d (List.mem_cons_of_mem c hd),
      Option.map_map, added_bare hc]
    rfl

theorem words?_append (h : IsWord t) (rest : Text) :
    words? (t ++ rest) = (wordsFrom .bare rest).map (t.foldr consFirst ·) := by
  cases t with
  | nil => exact absurd rfl h.1
  | cons c t =>
    have hc : IsBare c := h.2.2 c (by simp)
    have hn : c ≠ '#' := by simpa using h.2.1
    rw [words?, List.cons_append, wordsFrom, next_between hc hn,
      wordsFrom_bare_append fun d hd => h.2.2 d (List.mem_cons_of_mem c hd), Option.map_map,
      added_between hc]
    rfl

theorem foldr_consFirst_nil_cons (t : Text) (more : List Text) :
    t.foldr consFirst ([] :: more) = t :: more := by
  induction t with
  | nil => rfl
  | cons c t ih => rw [List.foldr_cons, ih, consFirst]

theorem words?_word_blank (h : IsWord t) (rest : Text) :
    words? (t ++ ' ' :: rest) = (words? rest).map (t :: ·) := by
  have hblank : wordsFrom .bare (' ' :: rest) = (words? rest).map ([] :: ·) := by
    rw [wordsFrom]
    rfl
  rw [words?_append h, hblank, Option.map_map]
  exact congrArg (Option.map · _) (funext fun more => foldr_consFirst_nil_cons t more)

/-- A text is one word exactly if it has no blank, quote or backslash and is no comment. -/
theorem words?_eq_singleton_iff : words? t = some [t] ↔ IsWord t := by
  constructor
  · intro h
    cases t with
    | nil => simp [words?, wordsFrom, last?] at h
    | cons c t =>
      have hlength : [c :: t].flatten.length = (c :: t).length := by simp
      obtain ⟨⟨hc, hn⟩, rest, hr, hrest⟩ := bare_of_length_flatten_cons (.inl rfl) h hlength
      refine ⟨by simp, by simpa using hn rfl, ?_⟩
      intro d hd
      rcases List.mem_cons.mp hd with rfl | hd
      · exact hc
      · exact bare_of_length_flatten hr hrest d hd
  · intro h
    have hend : wordsFrom .bare [] = some [[]] := rfl
    have hw := words?_append h []
    rw [List.append_nil, hend, Option.map_some, foldr_consFirst_nil_cons] at hw
    exact hw

end Countermand.Text

import Mathlib
import Countermand.Text

/-! Classes of characters, and runs of one class: where a run ends, what trimming leaves alone and
where a text is cut. -/
namespace Countermand.Text

theorem toNat_of_isAlphanum {c : Char} (h : c.isAlphanum = true) :
    48 ≤ c.toNat ∧ c.toNat ≤ 122 := by
  have hc : c.val.toNat = c.toNat := rfl
  simp only [Char.isAlphanum, Char.isAlpha, Char.isUpper, Char.isLower, Char.isDigit,
    Bool.or_eq_true, Bool.and_eq_true, decide_eq_true_eq, ge_iff_le, UInt32.le_iff_toNat_le,
    hc] at h
  have letters : 'A'.val.toNat = 65 ∧ 'Z'.val.toNat = 90 ∧ 'a'.val.toNat = 97 ∧
    'z'.val.toNat = 122 := by decide
  have digits : '0'.val.toNat = 48 ∧ '9'.val.toNat = 57 := by decide
  omega

/-- Between the space and the first control character beyond ASCII nothing is blank. -/
theorem isBlank_of_toNat {c : Char} (h : 33 ≤ c.toNat ∧ c.toNat ≤ 126) : isBlank c = false := by
  simp only [isBlank, Bool.or_eq_false_iff, Bool.and_eq_false_iff, decide_eq_false_iff_not,
    beq_eq_false_iff_ne]
  omega

theorem isBlank_of_isAlphanum {c : Char} (h : c.isAlphanum = true) : isBlank c = false :=
  isBlank_of_toNat (by have := toNat_of_isAlphanum h; omega)

theorem takeWhile_exact {p : Char → Bool} {run rest : Text} (h : ∀ c ∈ run, p c = true)
    (hr : ∀ c ∈ rest.head?, p c = false) : (run ++ rest).takeWhile p = run := by
  rw [List.takeWhile_append_of_pos h]
  cases rest with
  | nil => simp
  | cons c rest => simp [hr c rfl]

theorem dropWhile_exact {p : Char → Bool} {run rest : Text} (h : ∀ c ∈ run, p c = true)
    (hr : ∀ c ∈ rest.head?, p c = false) : (run ++ rest).dropWhile p = rest := by
  rw [List.dropWhile_append_of_pos h]
  cases rest with
  | nil => rfl
  | cons c rest => simp [hr c rfl]

theorem head?_dropWhile (p : Char → Bool) (t : Text) :
    ∀ c ∈ (t.dropWhile p).head?, p c = false := by
  intro c hc
  have h := List.head?_dropWhile_not p t
  rw [hc] at h
  exact h

theorem trimStart_eq_self {t : Text} (h : ∀ c ∈ t.head?, isBlank c = false) :
    trimStart t = t := by
  cases t with
  | nil => rfl
  | cons c t => rw [trimStart, List.dropWhile_cons_of_neg (by simpa using h c rfl)]

theorem trimEnd_eq_self {t : Text} (h : ∀ c ∈ t.getLast?, isBlank c = false) :
    trimEnd t = t := by
  have hr : trimStart t.reverse = t.reverse := trimStart_eq_self (by simpa using h)
  rw [trimEnd, ← trimStart, hr, List.reverse_reverse]

theorem trim_eq_self {t : Text} (h : ∀ c ∈ t.head?, isBlank c = false)
    (hl : ∀ c ∈ t.getLast?, isBlank c = false) : trim t = t := by
  rw [trim, trimStart_eq_self h, trimEnd_eq_self hl]

theorem cutAt_append {c : Char} {t : Text} (h : c ∉ t) (mark rest : Text) :
    cutAt (c :: mark) (t ++ (c :: mark ++ rest)) = some (t, rest) := by
  induction t with
  | nil => simp [cutAt]
  | cons d ds ih =>
    have hd : c ≠ d := fun he => h (by simp [he])
    have hds := ih fun hc => h (List.mem_cons_of_mem d hc)
    rw [List.cons_append, cutAt, hds]
    simp [hd]

theorem cutAt_eq_none {c : Char} {t : Text} (h : c ∉ t) (mark : Text) :
    cutAt (c :: mark) t = none := by
  induction t with
  | nil => rfl
  | cons d ds ih =>
    have hd : c ≠ d := fun he => h (by simp [he])
    simp [cutAt, hd, ih (fun hc => h (List.mem_cons_of_mem d hc))]

theorem cutAt_singleton {c : Char} {t : Text} (h : c ∉ t) (rest : Text) :
    cutAt [c] (t ++ c :: rest) = some (t, rest) :=
  cutAt_append h [] rest

theorem cutAt_singleton_eq_none {c : Char} {t : Text} (h : c ∉ t) : cutAt [c] t = none :=
  cutAt_eq_none h []

end Countermand.Text

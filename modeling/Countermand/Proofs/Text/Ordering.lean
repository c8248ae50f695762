import Mathlib
import Countermand.Text
import Countermand.Text.Utf8

/-! The order of texts by their code points. It is the order of the bytes that spell them: the first
byte of a character tells how many follow and has the highest bits, and the further ones have six
bits each, so that of two characters the bytes of the smaller one come first whatever follows. -/
namespace Countermand.Text

theorem atMost_eq_false_iff {s t : Text} : atMost s t = false ↔ t < s := by
  induction s generalizing t with
  | nil => simp [atMost]
  | cons c s ih =>
    cases t with
    | nil => simp [atMost]
    | cons d t =>
      have hlt : c.toNat < d.toNat ↔ c < d := Iff.rfl
      rw [atMost, List.cons_lt_cons_iff]
      split_ifs with hcd
      · simp [ih, hcd]
      · simp [hlt, Ne.symm hcd, (Ne.symm hcd).le_iff_lt]

theorem atMost_iff {s t : Text} : atMost s t = true ↔ ¬t < s := by
  rw [← atMost_eq_false_iff, Bool.not_eq_false]

theorem atMost_total (s t : Text) : (atMost s t || atMost t s) = true := by
  rw [Bool.or_eq_true, atMost_iff, atMost_iff, ← not_and_or]
  exact fun h => lt_asymm h.1 h.2

theorem atMost_trans {s t u : Text} (h : atMost s t = true) (hu : atMost t u = true) :
    atMost s u = true := by
  rw [atMost_iff, not_lt] at *
  exact h.trans hu

theorem lt_of_atMost {s t : Text} (h : atMost s t = true) (hne : s ≠ t) : s < t := by
  rw [atMost_iff, not_lt] at h
  exact lt_of_le_of_ne h hne

namespace Utf8

def encode (t : Text) : Bytes := t.flatMap String.utf8EncodeChar

/-- The bytes behind the first one of a character: six bits each. -/
def continuation : Nat → Nat → Bytes
  | 0, _ => []
  | further + 1, v => UInt8.ofNat (v / 64 ^ further % 64 + 0x80) :: continuation further v

/-- How many bytes follow the first one, and the mark on it, by the number of the character. -/
inductive Leads : Nat → Nat → Nat → Prop
  | one {v : Nat} : v < 0x80 → Leads v 0 0
  | two {v : Nat} : 0x80 ≤ v → v < 0x800 → Leads v 1 0xC0
  | three {v : Nat} : 0x800 ≤ v → v < 0x10000 → Leads v 2 0xE0
  | four {v : Nat} : 0x10000 ≤ v → v < 0x110000 → Leads v 3 0xF0

theorem exists_leads (c : Char) : ∃ further mark, Leads c.toNat further mark ∧
    String.utf8EncodeChar c = UInt8.ofNat (c.toNat / 64 ^ further + mark) ::
      continuation further c.toNat := by
  have hc : c.toNat < 0x110000 := by
    rcases c.valid with hc | ⟨-, hc⟩
    · exact Nat.lt_trans hc (by decide)
    · exact hc
  have hval : c.val.toNat = c.toNat := rfl
  rw [String.utf8EncodeChar, hval]
  split_ifs with hone htwo hthree
  · exact ⟨0, 0, .one (by omega), by simp [continuation]⟩
  · refine ⟨1, 0xC0, .two (by omega) (by omega), ?_⟩
    rw [show c.toNat / 64 % 32 = c.toNat / 64 by omega]
    simp [continuation]
  · refine ⟨2, 0xE0, .three (by omega) (by omega), ?_⟩
    rw [show c.toNat / 4096 % 16 = c.toNat / 4096 by omega]
    simp [continuation]
  · refine ⟨3, 0xF0, .four (by omega) hc, ?_⟩
    rw [show c.toNat / 262144 % 8 = c.toNat / 262144 by omega]
    simp [continuation]

theorem Leads.lt {v further mark : Nat} (h : Leads v further mark) :
    v / 64 ^ further + mark < 2 ^ 8 := by
  cases h <;> norm_num <;> omega

/-- The first byte of a smaller number is smaller, or it has the same bits under the same mark. -/
theorem Leads.lt_or_eq {v w further further' mark mark' : Nat} (hv : Leads v further mark)
    (hw : Leads w further' mark') (h : v < w) :
    v / 64 ^ further + mark < w / 64 ^ further' + mark' ∨
      further = further' ∧ mark = mark' ∧ v / 64 ^ further = w / 64 ^ further' := by
  cases hv <;> cases hw <;> norm_num <;> omega

theorem continuation_append_lt {further v w : Nat} (hlt : v < w)
    (h : v / 64 ^ further = w / 64 ^ further) (s t : Bytes) :
    continuation further v ++ s < continuation further w ++ t := by
  induction further with
  | zero =>
    rw [Nat.pow_zero, Nat.div_one, Nat.div_one] at h
    exact absurd h hlt.ne
  | succ further ih =>
    rw [Nat.pow_succ, ← Nat.div_div_eq_div_mul, ← Nat.div_div_eq_div_mul] at h
    have hle : v / 64 ^ further ≤ w / 64 ^ further := Nat.div_le_div_right hlt.le
    rw [continuation, continuation, List.cons_append, List.cons_append, List.cons_lt_cons_iff]
    rcases hle.lt_or_eq with hbits | hbits
    · left
      rw [UInt8.lt_iff_toNat_lt, UInt8.toNat_ofNat', UInt8.toNat_ofNat']
      omega
    · right
      rw [hbits]
      exact ⟨rfl, ih hbits⟩

theorem encodeChar_append_lt {c d : Char} (h : c < d) (s t : Bytes) :
    String.utf8EncodeChar c ++ s < String.utf8EncodeChar d ++ t := by
  obtain ⟨further, mark, hc, hcbytes⟩ := exists_leads c
  obtain ⟨further', mark', hd, hdbytes⟩ := exists_leads d
  rw [hcbytes, hdbytes, List.cons_append, List.cons_append, List.cons_lt_cons_iff]
  rcases hc.lt_or_eq hd h with hlead | ⟨rfl, rfl, hlead⟩
  · left
    rw [UInt8.lt_iff_toNat_lt, UInt8.toNat_ofNat', UInt8.toNat_ofNat', Nat.mod_eq_of_lt hc.lt,
      Nat.mod_eq_of_lt hd.lt]
    exact hlead
  · right
    rw [hlead]
    exact ⟨rfl, continuation_append_lt h hlead s t⟩

/-- A text that comes before another has the smaller bytes. -/
theorem encode_lt_encode {s t : Text} (h : s < t) : encode s < encode t := by
  induction h with
  | @nil c t =>
    rw [encode, encode, List.flatMap_nil, List.flatMap_cons]
    obtain ⟨further, mark, -, hbytes⟩ := exists_leads c
    rw [hbytes]
    exact List.nil_lt_cons _ _
  | rel h => exact encodeChar_append_lt h _ _
  | cons _ ih =>
    rw [encode, encode, List.flatMap_cons, List.flatMap_cons]
    exact List.Lex.append_left _ ih _

end Utf8
end Countermand.Text

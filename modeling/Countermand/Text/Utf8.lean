import Countermand.Text

/-! UTF-8. Bytes are cut into characters and faults; a fault is the longest run of bytes that
could have started a character, so every byte is accounted for. -/
namespace Countermand

abbrev Bytes := List UInt8

namespace Text.Utf8

/-- What the first byte of a character says: how many bytes follow it, the bits it gives itself,
and the range of the second byte, which keeps out needless length, surrogates and numbers that
are too large. -/
structure Lead where
  further : Nat
  bits : Nat
  low : Nat
  high : Nat

def lead? (b : UInt8) : Option Lead :=
  let n := b.toNat
  if n < 0x80 then some ⟨0, n, 0x80, 0xBF⟩
  else if n < 0xC2 then none
  else if n < 0xE0 then some ⟨1, n - 0xC0, 0x80, 0xBF⟩
  else if n = 0xE0 then some ⟨2, 0, 0xA0, 0xBF⟩
  else if n = 0xED then some ⟨2, 0xD, 0x80, 0x9F⟩
  else if n < 0xF0 then some ⟨2, n - 0xE0, 0x80, 0xBF⟩
  else if n = 0xF0 then some ⟨3, 0, 0x90, 0xBF⟩
  else if n < 0xF4 then some ⟨3, n - 0xF0, 0x80, 0xBF⟩
  else if n = 0xF4 then some ⟨3, 4, 0x80, 0x8F⟩
  else none

/-- Adds the bits of further bytes. Without all of them there is no character, and the bytes
that did fit are used up. -/
def continued (further bits low high : Nat) (rest : Bytes) : Option Char × Bytes :=
  match further, rest with
  | 0, rest => (some (Char.ofNat bits), rest)
  | _ + 1, [] => (none, [])
  | further + 1, b :: rest =>
    if low ≤ b.toNat ∧ b.toNat ≤ high then
      continued further (64 * bits + (b.toNat - 0x80)) 0x80 0xBF rest
    else (none, b :: rest)

theorem continued_length_le (further bits low high : Nat) (rest : Bytes) :
    (continued further bits low high rest).2.length ≤ rest.length := by
  induction further generalizing bits low high rest with
  | zero => simp [continued]
  | succ n ih =>
    cases rest with
    | nil => simp [continued]
    | cons b rest =>
      simp only [continued]
      split
      · exact Nat.le_succ_of_le (ih _ _ _ rest)
      · simp

/-- The first character, if the bytes start with one, and what is left. -/
def front (b : UInt8) (rest : Bytes) : Option Char × Bytes :=
  match lead? b with
  | some lead => continued lead.further lead.bits lead.low lead.high rest
  | none => (none, rest)

theorem front_length_le (b : UInt8) (rest : Bytes) : (front b rest).2.length ≤ rest.length := by
  simp only [front]
  split
  · exact continued_length_le _ _ _ _ rest
  · simp

/-- The characters, with `none` for each fault. -/
def characters (bytes : Bytes) : List (Option Char) :=
  match bytes with
  | [] => []
  | b :: rest => (front b rest).1 :: characters (front b rest).2
termination_by bytes.length
decreasing_by
  have := front_length_le b rest
  simp only [List.length_cons]
  omega

def decode? (bytes : Bytes) : Option Text := (characters bytes).mapM id

/-- The text of any bytes, with the replacement character for each fault. -/
def decodeLossy (bytes : Bytes) : Text := (characters bytes).map (·.getD '\uFFFD')

def size (t : Text) : Nat := t.foldl (fun n c => n + c.utf8Size) 0

end Text.Utf8
end Countermand

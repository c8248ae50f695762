import Countermand.Text

/-! Counts written in decimal, and the range in which they are read. -/
namespace Countermand.Text

/-- Counts are read up to the largest unsigned 64-bit number. -/
def countLimit : Nat := 0x10000000000000000

def digitsValue (digits : Text) : Nat :=
  digits.foldl (fun n c => 10 * n + (c.toNat - '0'.toNat)) 0

/-- A count: decimal digits, with a plus sign allowed in front, below the limit. -/
def readCount? (t : Text) : Option Nat :=
  let digits := match t with
    | '+' :: rest => rest
    | _ => t
  if digits ≠ [] ∧ digits.all Char.isDigit ∧ digitsValue digits < countLimit then
    some (digitsValue digits)
  else none

def ofNat (n : Nat) : Text := (toString n).toList

end Countermand.Text

import Countermand.Text
import Countermand.Text.Graphic

/-! Text shown between double quotes, with everything in it visible. -/
namespace Countermand.Text

/-- Hexadecimal digits in lower case, without zeros in front. -/
def hexadecimal (n : Nat) : Text := Nat.toDigits 16 n

/-- A character between double quotes: the quote, the backslash and common controls come after a
backslash, and other characters that do not show are written by their numbers. -/
def showQuoted (c : Char) : Text :=
  if c = '\x00' then "\\0".toList
  else if c = '\t' then "\\t".toList
  else if c = '\n' then "\\n".toList
  else if c = '\r' then "\\r".toList
  else if c = '"' ∨ c = '\\' then ['\\', c]
  else if isGraphic c then [c]
  else "\\u\x7b".toList ++ hexadecimal c.toNat ++ ['\x7d']

def quoted (t : Text) : Text := '"' :: t.flatMap showQuoted ++ ['"']

end Countermand.Text

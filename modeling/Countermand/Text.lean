/-! Text as the list of its characters: blank characters, trimming, cutting and splitting.
Nothing is lost by a split (`intercalate_splitOn`), and a trimmed text is part of the text. -/
namespace Countermand

/-- Text is handled as the list of its characters. -/
abbrev Text := List Char

namespace Text

/-- The characters with Unicode's `White_Space` property. -/
def isBlank (c : Char) : Bool :=
  let n := c.toNat
  (9 ≤ n && n ≤ 13) || n == 0x20 || n == 0x85 || n == 0xA0 || n == 0x1680 ||
    (0x2000 ≤ n && n ≤ 0x200A) || n == 0x2028 || n == 0x2029 || n == 0x202F ||
    n == 0x205F || n == 0x3000

def trimStart (t : Text) : Text := t.dropWhile isBlank

theorem trimStart_length_le (t : Text) : (trimStart t).length ≤ t.length :=
  (List.dropWhile_suffix isBlank).length_le

def trimEnd (t : Text) : Text := (t.reverse.dropWhile isBlank).reverse

theorem trimEnd_length_le (t : Text) : (trimEnd t).length ≤ t.length := by
  have h := (List.dropWhile_suffix (l := t.reverse) isBlank).length_le
  simpa [trimEnd] using h

def trim (t : Text) : Text := trimEnd (trimStart t)

theorem trim_length_le (t : Text) : (trim t).length ≤ t.length :=
  Nat.le_trans (trimEnd_length_le _) (trimStart_length_le t)

def consFirst (c : Char) : List Text → List Text
  | [] => [[c]]
  | piece :: pieces => (c :: piece) :: pieces

/-- The pieces between the characters that separate; one more than there are of these. -/
def splitWhere (separates : Char → Bool) : Text → List Text
  | [] => [[]]
  | c :: cs => if separates c then [] :: splitWhere separates cs
      else consFirst c (splitWhere separates cs)

theorem splitWhere_ne_nil (separates : Char → Bool) (t : Text) : splitWhere separates t ≠ [] := by
  cases t with
  | nil => simp [splitWhere]
  | cons c cs =>
    simp only [splitWhere]
    split
    · simp
    · cases splitWhere separates cs <;> simp [consFirst]

def splitOn (separator : Char) : Text → List Text := splitWhere (· == separator)

theorem intercalate_consFirst (separator : Text) (c : Char) {pieces : List Text}
    (h : pieces ≠ []) :
    separator.intercalate (consFirst c pieces) = c :: separator.intercalate pieces := by
  cases pieces with
  | nil => exact absurd rfl h
  | cons piece rest => cases rest <;> simp [consFirst, List.intercalate]

theorem intercalate_splitOn (separator : Char) (t : Text) :
    [separator].intercalate (splitOn separator t) = t := by
  rw [splitOn]
  induction t with
  | nil => rfl
  | cons c cs ih =>
    simp only [splitWhere]
    split
    · rename_i h
      obtain ⟨piece, pieces, hp⟩ := List.exists_cons_of_ne_nil
        (splitWhere_ne_nil (· == separator) cs)
      rw [hp] at ih ⊢
      simp only [List.intercalate] at ih ⊢
      simp [eq_of_beq h, ← ih]
    · rw [intercalate_consFirst _ _ (splitWhere_ne_nil _ cs), ih]

/-- The runs of characters that do not separate. -/
def fields (separates : Char → Bool) (t : Text) : List Text :=
  (splitWhere separates t).filter (· ≠ [])

/-- The text after an initial part, if it starts so. -/
def after? (initial t : Text) : Option Text :=
  if initial.isPrefixOf t then some (t.drop initial.length) else none

def before? (final t : Text) : Option Text :=
  (after? final.reverse t.reverse).map List.reverse

/-- What stands before and after the first place where a mark is found. -/
def cutAt (mark : Text) : Text → Option (Text × Text)
  | [] => none
  | c :: cs =>
    if mark.isPrefixOf (c :: cs) then some ([], (c :: cs).drop mark.length)
    else (cutAt mark cs).map fun (before, after) => (c :: before, after)

theorem append_of_cutAt {mark t before after : Text} (h : cutAt mark t = some (before, after)) :
    t = before ++ mark ++ after := by
  induction t generalizing before with
  | nil => simp [cutAt] at h
  | cons c cs ih =>
    simp only [cutAt] at h
    split at h
    · rename_i hp
      simp only [Option.some.injEq, Prod.mk.injEq] at h
      obtain ⟨rfl, rfl⟩ := h
      simpa using (List.prefix_iff_eq_append.mp (List.isPrefixOf_iff_prefix.mp hp)).symm
    · obtain ⟨⟨b, a⟩, hb, he⟩ := Option.map_eq_some_iff.mp h
      simp only [Prod.mk.injEq] at he
      rw [ih (hb.trans (by rw [he.2])), ← he.1]
      simp

def cutAtLast (separator : Char) (t : Text) : Option (Text × Text) :=
  (cutAt [separator] t.reverse).map fun (after, before) => (before.reverse, after.reverse)

/-- The pieces between the places where a mark is found, from the left. -/
def splitAtMark (mark t : Text) : List Text :=
  match _h : cutAt mark t with
  | none => [t]
  | some (before, after) => if mark = [] then [t] else before :: splitAtMark mark after
termination_by t.length
decreasing_by
  rename_i hm
  have := List.length_pos_iff.mpr hm
  have := congrArg List.length (append_of_cutAt _h)
  simp only [List.length_append] at this
  omega

/-- The items of a delimited list: empty ones are left out, and without a delimiter every
character is an item. -/
def items (delimiter t : Text) : List Text :=
  if delimiter = [] then t.map ([·]) else (splitAtMark delimiter t).filter (· ≠ [])

/-- A carriage return right before a line feed belongs to the end of the line. -/
def withoutReturn (line : Text) : Text :=
  if line.getLast? = some '\r' then line.dropLast else line

/-- The lines of a text; what follows the last line feed is a line unless it is empty. -/
def lines (t : Text) : List Text :=
  let pieces := splitOn '\n' t
  pieces.dropLast.map withoutReturn ++ pieces.getLast?.toList.filter (· ≠ [])

/-- Whether a text comes no later than another in the order of their code points. -/
def atMost : Text → Text → Bool
  | [], _ => true
  | _ :: _, [] => false
  | c :: cs, d :: ds => if c = d then atMost cs ds else c.toNat < d.toNat

/-- Letters and digits of ASCII only. -/
def isAlphanumeric (t : Text) : Bool := t.all Char.isAlphanum

end Text
end Countermand

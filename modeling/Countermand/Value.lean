import Countermand.Text

/-! The values captured from a command line, and the bindings of names to them. -/
namespace Countermand

inductive Value
  | flag (given : Bool)
  | text (body : Text)
  | list (items : List Text)
  deriving DecidableEq, Repr

namespace Value

/-- A flag that was not given, the empty text and the empty list are unset. -/
def isSet : Value → Bool
  | .flag given => given
  | .text body => !body.isEmpty
  | .list items => !items.isEmpty

def flagText : Bool → Text
  | true => "true".toList
  | false => []

def display : Value → Text
  | .flag given => flagText given
  | .text body => body
  | .list items => " ".toList.intercalate items

end Value

/-- Names with their values, each name once. -/
abbrev Bindings := List (Text × Value)

namespace Bindings

def get? (b : Bindings) (name : Text) : Option Value := b.lookup name

def put : Bindings → Text → Value → Bindings
  | [], name, v => [(name, v)]
  | (n, w) :: b, name, v => if n = name then (n, v) :: b else (n, w) :: put b name v

theorem get?_cons (entry : Text × Value) (b : Bindings) (name : Text) :
    get? (entry :: b) name = if name = entry.1 then some entry.2 else b.get? name := by
  rw [get?, List.lookup_cons]
  by_cases h : name = entry.1
  · simp [h]
  · simp [h, beq_eq_false_iff_ne.mpr h, get?]

theorem get?_put (b : Bindings) (name other : Text) (v : Value) :
    (b.put name v).get? other = if other = name then some v else b.get? other := by
  induction b with
  | nil => simp [put, get?_cons]
  | cons entry b ih =>
    by_cases hn : entry.1 = name
    · by_cases h : other = name <;> simp [put, get?_cons, hn, h]
    · by_cases h : other = entry.1
      · simp [put, get?_cons, hn, h]
      · simp [put, get?_cons, hn, h, ih]

/-- Adds items to a list, or starts one in place of anything that is no list. -/
def extend (b : Bindings) (name : Text) (items : List Text) : Bindings :=
  match b.get? name with
  | some (.list present) => b.put name (.list (present ++ items))
  | _ => b.put name (.list items)

end Bindings
end Countermand

import Countermand.Toml.Reading

/-! Taking typed fields out of TOML tables. A field that is absent is told apart from one whose
value has another type. -/
namespace Countermand.Toml

namespace Value

def string? : Value → Option Text
  | .string body => some body
  | _ => none

def boolean? : Value → Option Bool
  | .boolean holds => some holds
  | _ => none

def array? : Value → Option (List Value)
  | .array items => some items
  | _ => none

def strings? (v : Value) : Option (List Text) := v.array?.bind fun items => items.mapM string?

end Value

namespace Table

/-- The value of a key, if it is there; a value that cannot be decoded is a failure. -/
def field? {α : Type} (table : Table) (key : String) (decode : Value → Option α) :
    Option (Option α) :=
  match table.lookup key.toList with
  | none => some none
  | some v => (decode v).map some

/-- The value of a key, or the default if the key is not there. -/
def fieldOr {α : Type} (table : Table) (key : String) (decode : Value → Option α) (default : α) :
    Option α :=
  (table.field? key decode).map (·.getD default)

end Table
end Countermand.Toml

import Countermand.Text

/-! The operations and checks that expressions can call, with their names and arities. -/
namespace Countermand

/-- Calls that yield text. -/
inductive Operation
  | dirname | basename | abspath | env | join
  deriving DecidableEq, Repr

/-- Calls that ask the file system. -/
inductive Check
  | present | file | directory
  deriving DecidableEq, Repr

namespace Operation

def name : Operation → Text
  | .dirname => "dirname".toList
  | .basename => "basename".toList
  | .abspath => "abspath".toList
  | .env => "env".toList
  | .join => "join".toList

def arity : Operation → Nat
  | .join => 2
  | _ => 1

def all : List Operation := [.dirname, .basename, .abspath, .env, .join]

def ofName? (word : Text) : Option Operation := all.find? (·.name = word)

@[simp] theorem ofName?_name (op : Operation) : ofName? op.name = some op := by
  cases op <;> decide

theorem name_of_ofName? {word : Text} {op : Operation} (h : ofName? word = some op) :
    op.name = word := by
  simpa using List.find?_some h

end Operation

namespace Check

def name : Check → Text
  | .present => "exists".toList
  | .file => "isfile".toList
  | .directory => "isdir".toList

def arity : Check → Nat := fun _ => 1

def all : List Check := [.present, .file, .directory]

def ofName? (word : Text) : Option Check := all.find? (·.name = word)

@[simp] theorem ofName?_name (k : Check) : ofName? k.name = some k := by
  cases k <;> decide

theorem name_of_ofName? {word : Text} {k : Check} (h : ofName? word = some k) :
    k.name = word := by
  simpa using List.find?_some h

end Check
end Countermand

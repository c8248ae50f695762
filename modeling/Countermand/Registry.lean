import Countermand.FileSystem
import Countermand.Text.Numeral
import Countermand.Toml.Decoding

/-! Registries: which commands can be taken back, and by which templates. A registry is read from
a TOML document as a whole; one bad entry makes all of it unusable. -/
namespace Countermand

inductive ShellSet
  | one (name : Text)
  | many (names : List Text)
  deriving DecidableEq, Repr

namespace ShellSet

/-- The name that stands for every shell. -/
def every : Text := "all".toList

def contains (shell : Text) : ShellSet → Bool
  | .one name => name = every || name = shell
  | .many names => names.any fun name => name = every || name = shell

def ofValue? : Toml.Value → Option ShellSet
  | .string name => some (.one name)
  | v => v.strings?.map .many

end ShellSet

/-- A command pattern with the template of the commands that take it back. -/
structure Entry where
  pattern : Text
  template : Text
  /-- The commands restore the previous state reliably. -/
  precise : Bool
  deriving DecidableEq, Repr

structure Registry where
  path : Text
  shells : ShellSet
  entries : List Entry
  deriving DecidableEq, Repr

inductive RegistryError
  | unreadable (path : Text)
  | malformed (path : Text)
  | missingKey (path : Text) (position : Nat) (key : String)
  deriving DecidableEq, Repr

namespace RegistryError

def message : RegistryError → String
  | .unreadable path => s!"could not read registry '{String.ofList path}'"
  | .malformed path => s!"could not deserialize registry '{String.ofList path}'"
  | .missingKey path position key =>
    s!"entry {position} of registry '{String.ofList path}' is missing required key '{key}'"

end RegistryError

namespace Entry

/-- An entry as it is written; a key may still be missing. -/
structure Draft where
  pattern : Option Text
  template : Option Text
  precise : Bool
  deriving DecidableEq, Repr

namespace Draft

/-- A draft is a table, or a list of the values in this order; a date has none of the keys. -/
def ofValue? : Toml.Value → Option Draft
  | .table entries => do
    let fields : Toml.Table := entries
    return ⟨← fields.field? "cmd" Toml.Value.string?, ← fields.field? "undo" Toml.Value.string?,
      ← fields.fieldOr "precise" Toml.Value.boolean? false⟩
  | .array (pattern :: template :: rest) => do
    let precise ← match rest with
      | [] => some false
      | v :: _ => v.boolean?
    return ⟨some (← pattern.string?), some (← template.string?), precise⟩
  | .date => some ⟨none, none, false⟩
  | _ => none

/-- The entry, or the first key that is missing. -/
def complete : Draft → Except String Entry
  | ⟨none, _, _⟩ => .error "cmd"
  | ⟨some _, none, _⟩ => .error "undo"
  | ⟨some pattern, some template, precise⟩ => .ok ⟨pattern, template, precise⟩

/-- The entries of drafts from a position on, or the position and the key of the first failure. -/
def completeAll (position : Nat) : List Draft → Except (Nat × String) (List Entry)
  | [] => .ok []
  | draft :: drafts => do
    let entry ← draft.complete.mapError (position, ·)
    return entry :: (← completeAll (position + 1) drafts)

end Draft
end Entry

namespace Registry

def draft? (document : Toml.Table) : Option (ShellSet × List Entry.Draft) := do
  let shells ← document.fieldOr "supported-shells" ShellSet.ofValue? (.one ShellSet.every)
  let drafts ← document.fieldOr "entry"
    (fun v => v.array?.bind fun items => items.mapM Entry.Draft.ofValue?) []
  return (shells, drafts)

def read (path content : Text) : Except RegistryError Registry :=
  match (Toml.read content).bind draft? with
  | none => .error (.malformed path)
  | some (shells, drafts) =>
    match Entry.Draft.completeAll 0 drafts with
    | .ok entries => .ok ⟨path, shells, entries⟩
    | .error (position, key) => .error (.missingKey path position key)

/-- Reads the registry in a file, which must be UTF-8. -/
def load (files : FileSystem) (path : Text) : Except RegistryError Registry :=
  match (files.read? path).bind Text.Utf8.decode? with
  | none => .error (.unreadable path)
  | some content => read path content

def supports (registry : Registry) (shell : Text) : Bool := registry.shells.contains shell

end Registry
end Countermand

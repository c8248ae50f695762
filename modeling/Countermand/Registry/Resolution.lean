import Countermand.Registry
import Countermand.Pattern.Reading
import Countermand.Pattern.Matching

/-! The entries of registries that a command line fits. -/
namespace Countermand

structure Search where
  /-- Look into every registry, and not only up to the first one that has an answer. -/
  exhaustive : Bool
  /-- Entries that are not precise count as well. -/
  imprecise : Bool
  deriving DecidableEq, Repr

/-- An entry that a command line fits, with the values of its variables. -/
structure Resolution where
  bindings : Bindings
  entry : Entry
  source : Text
  deriving DecidableEq, Repr

namespace Entry

/-- The values of the pattern's variables; a pattern that cannot be read fits nothing. -/
def bind? (entry : Entry) (words : List Text) : Option Bindings :=
  match Pattern.read entry.pattern with
  | .error _ => none
  | .ok pattern => (pattern.bind words).toOption

end Entry

namespace Registry

def resolutions (search : Search) (shell : Text) (words : List Text) (registry : Registry) :
    List Resolution :=
  if registry.supports shell then
    registry.entries.filterMap fun entry =>
      if entry.precise || search.imprecise then
        (entry.bind? words).map fun bindings => ⟨bindings, entry, registry.path⟩
      else none
  else []

/-- The resolutions of all registries, or of the first one that has any. -/
def resolve (search : Search) (shell : Text) (words : List Text) : List Registry → List Resolution
  | [] => []
  | registry :: registries =>
    let found := registry.resolutions search shell words
    if found ≠ [] ∧ search.exhaustive = false then found
    else found ++ resolve search shell words registries

end Registry
end Countermand

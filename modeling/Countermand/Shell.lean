import Countermand.Path

/-! Names of shells. -/
namespace Countermand.Shell

/-- The name of a shell, given by its path or the name of its process; login shells have a hyphen
in front. -/
def name? (t : Text) : Option Text :=
  let name := (Path.basename (Text.trim t)).dropWhile (· = '-')
  if name = [] then none else some name

end Countermand.Shell

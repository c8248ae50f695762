import Countermand.Text

/-! Slash-separated paths, handled by their text alone: links are not followed. -/
namespace Countermand.Path

/-- Everything before the last slash; slashes at its end are dropped unless it has only slashes. -/
def dirname (p : Text) : Text :=
  let head := (p.reverse.dropWhile (· ≠ '/')).reverse
  let trimmed := (head.reverse.dropWhile (· = '/')).reverse
  if trimmed = [] then head else trimmed

def basename (p : Text) : Text := (p.reverse.takeWhile (· ≠ '/')).reverse

theorem basename_suffix (p : Text) : basename p <:+ p := by
  rw [← List.reverse_prefix, basename, List.reverse_reverse]
  exact List.takeWhile_prefix _

def isAbsolute (p : Text) : Bool := p.head? == some '/'

/-- The steps of a path: empty ones and `.` lead nowhere. -/
def steps (p : Text) : List Text :=
  (Text.splitOn '/' p).filter fun s => s ≠ [] ∧ s ≠ ['.']

/-- One step from a place whose innermost directory comes first; above the root is the root. -/
def walk (place : List Text) (s : Text) : List Text :=
  if s = ['.', '.'] then place.tail else s :: place

def ofPlace (place : List Text) : Text := '/' :: ['/'].intercalate place.reverse

def child (directory name : Text) : Text :=
  if isAbsolute name then name
  else if directory = [] ∨ directory.getLast? = some '/' then directory ++ name
  else directory ++ '/' :: name

/-- The path from the root, without `.`, `..` and empty steps. -/
def absolute (workingDirectory p : Text) : Text :=
  ofPlace ((steps (child workingDirectory p)).foldl walk [])

end Countermand.Path

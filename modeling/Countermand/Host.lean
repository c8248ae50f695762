import Countermand.FileSystem
import Countermand.Path

/-! The surroundings in which templates are expanded. -/
namespace Countermand

structure Host where
  files : FileSystem
  workingDirectory : Text
  environment : List (Text × Text)

namespace Host

/-- What follows the name and an equals sign in the first line `name=value` that starts with them;
empty if there is none. The empty name names nothing. -/
def variableText (host : Host) (name : Text) : Text :=
  if name = [] then []
  else (host.environment.findSome? fun (key, value) =>
    Text.after? (name ++ ['=']) (key ++ '=' :: value)).getD []

end Host
end Countermand

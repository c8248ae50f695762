import Countermand.Undoing

/-! The options of the command line. There are no other arguments, and names may not be
shortened. -/
namespace Countermand.CommandLine

structure Options where
  verbosity : Nat
  dry : Bool
  imprecise : Bool
  command : Option Text
  exhaustive : Bool
  interactive : Bool
  showSettings : Bool
  deriving DecidableEq, Repr

/-- An option with a meaning of its own; all but the command are given without a value. -/
inductive Name
  | verbose | dry | allowImprecise | command | all | interactive | showConfig | help
  deriving DecidableEq, Repr

/-- Why the arguments are not read to the end. -/
inductive Stop
  | misused | help
  deriving DecidableEq, Repr

namespace Name

def ofLetter? : Char → Option Name
  | 'v' => some .verbose
  | 'd' => some .dry
  | 'c' => some .command
  | 'A' => some .all
  | 'i' => some .interactive
  | 'h' => some .help
  | _ => none

def spelling : Name → String
  | .verbose => "verbose"
  | .dry => "dry"
  | .allowImprecise => "allow-imprecise"
  | .command => "command"
  | .all => "all"
  | .interactive => "interactive"
  | .showConfig => "show-config"
  | .help => "help"

def ofSpelling? (t : Text) : Option Name :=
  [verbose, dry, allowImprecise, command, all, interactive, showConfig, help].find?
    fun name => name.spelling.toList = t

end Name

namespace Options

def none : Options := ⟨0, false, false, .none, false, false, false⟩

/-- Sets an option that is set at most once. -/
def once (present : Bool) (options : Options) : Except Stop Options :=
  if present then .error .misused else .ok options

def flag (o : Options) : Name → Except Stop Options
  | .verbose => .ok { o with verbosity := o.verbosity + 1 }
  | .dry => once o.dry { o with dry := true }
  | .allowImprecise => once o.imprecise { o with imprecise := true }
  | .all => once o.exhaustive { o with exhaustive := true }
  | .interactive => once o.interactive { o with interactive := true }
  | .showConfig => once o.showSettings { o with showSettings := true }
  | .help => .error .help
  | .command => .error .misused

def take (o : Options) (command : Text) : Except Stop Options :=
  once o.command.isSome { o with command := some command }

/-- Takes options by their letters. The letter of the command takes the rest of the word as its
value, without an equals sign in front, and if nothing is left it waits for the next word. -/
def letters (o : Options) : Text → Except Stop (Options × Bool)
  | [] => .ok (o, false)
  | c :: rest =>
    match Name.ofLetter? c with
    | .none => .error .misused
    | some .command =>
      match rest with
      | [] => .ok (o, true)
      | '=' :: value => do return (← o.take value, false)
      | value => do return (← o.take value, false)
    | some name => do letters (← o.flag name) rest

/-- Takes an option by its long name, which an equals sign divides from a value. -/
def long (o : Options) (t : Text) : Except Stop (Options × Bool) :=
  match Text.cutAt ['='] t with
  | some (name, value) =>
    if Name.ofSpelling? name = some .command then do return (← o.take value, false)
    else .error .misused
  | .none =>
    match Name.ofSpelling? t with
    | .none => .error .misused
    | some .command => .ok (o, true)
    | some name => do return (← o.flag name, false)

/-- A word that could be an option is no value. -/
def isValue : Text → Bool
  | '-' :: _ :: _ => false
  | _ => true

/-- Takes words one after the other; `waiting` says that the next one is to be the command. -/
def words (o : Options) (waiting : Bool) : List Text → Except Stop Options
  | [] => if waiting then .error .misused else .ok o
  | word :: rest =>
    if waiting then
      if isValue word then do words (← o.take word) false rest else .error .misused
    else
      match word with
      | ['-', '-'] => if rest = [] then .ok o else .error .misused
      | '-' :: '-' :: name => do
        let (o, waiting) ← o.long name
        words o waiting rest
      | '-' :: c :: cs => do
        let (o, waiting) ← o.letters (c :: cs)
        words o waiting rest
      | _ => .error .misused

def read (arguments : List Text) : Except Stop Options := none.words false arguments

/-- Options add to what the settings allow. -/
def amend (o : Options) (settings : Settings) : Settings :=
  { settings with
    imprecise := settings.imprecise || o.imprecise
    exhaustive := settings.exhaustive || o.exhaustive }

def request (o : Options) : Request := ⟨o.command, o.dry, o.interactive⟩

def help : List Text :=
  ["make a 'best effort' attempt to undo the most recently run command",
    "",
    "Usage: undo [OPTIONS]",
    "",
    "Options:",
    "  -v, --verbose...       Increase the level of verbosity, can be stacked (-vvv)",
    "  -d, --dry              Show the resolved command(s) but do not run them",
    "      --allow-imprecise  Also consider undo commands which may have unexpected or " ++
      "unwanted effects",
    "  -c, --command <CMD>    Undo the given command rather than the last one in history",
    "  -A, --all              Search all registry files rather than stopping after the first " ++
      "file with a match",
    "  -i, --interactive      Ask before running the undo command, even when there is only one",
    "      --show-config      Show configuration information",
    "  -h, --help             Print help"].map String.toList

end Options
end Countermand.CommandLine

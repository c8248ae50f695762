import Countermand.Pattern.Basic
import Countermand.Value

/-! Matching the words of a command line against a pattern. Options are found first, wherever
they stand; what they bind does not depend on what was bound before, so a scan yields a list of
assignments. The words left over go to the positionals from left to right, each taking as many
as it can while the later ones keep the fewest they need. -/
namespace Countermand

inductive Mismatch
  | noCommand
  | command (word : Text)
  | subcommand (expected : Text)
  | unknownOption (name : Text)
  | ambiguousOption (name : Text)
  | flagValue (variableName : Text)
  | noValue (variableName : Text)
  | fewOptionValues (count : Nat) (variableName : Text)
  | fewPositionals (least : Nat) (variableName : Text)
  | leftOver (words : List Text)
  | requiredOption (variableName : Text)
  | requiredGroup (spellings : List Text)
  deriving DecidableEq, Repr

namespace Mismatch

def spaced (words : List Text) : String := String.ofList (" ".toList.intercalate words)

def message : Mismatch → String
  | .noCommand => "empty command line"
  | .command word => s!"command '{String.ofList word}' differs"
  | .subcommand expected => s!"expected sub-command '{String.ofList expected}'"
  | .unknownOption name => s!"unknown option '{String.ofList name}'"
  | .ambiguousOption name => s!"ambiguous option '{String.ofList name}'"
  | .flagValue name => s!"flag '{String.ofList name}' takes no value"
  | .noValue name => s!"expected a value for '{String.ofList name}'"
  | .fewOptionValues count name => s!"expected {count} value(s) for '{String.ofList name}'"
  | .fewPositionals least name =>
    s!"expected at least {least} value(s) for '{String.ofList name}'"
  | .leftOver words => s!"unrecognized arguments: {spaced words}"
  | .requiredOption name => s!"missing required option for '{String.ofList name}'"
  | .requiredGroup spellings => s!"expected at least one of {spaced spellings}"

end Mismatch

inductive Assignment
  | put (name : Text) (value : Value)
  /-- Repeated lists accumulate. -/
  | extend (name : Text) (items : List Text)
  deriving DecidableEq, Repr

namespace Assignment

def apply (b : Bindings) : Assignment → Bindings
  | .put name value => b.put name value
  | .extend name items => b.extend name items

def applyAll (b : Bindings) (assignments : List Assignment) : Bindings := assignments.foldl apply b

end Assignment

/-- An argument with the variable it binds and its place among the options or positionals. -/
structure Slot where
  variableName : Text
  place : Nat
  argument : Argument
  deriving DecidableEq, Repr

namespace Slot

/-- The slots of some arguments, with the numbers of options and positionals before them. -/
def assign (options positionals : Nat) : List Argument → List Slot
  | [] => []
  | a :: as =>
    if a.positional then
      ⟨a.variableName.getD (Text.ofNat positionals), positionals, a⟩ ::
        assign options (positionals + 1) as
    else
      ⟨a.variableName.getD ("OPTION_".toList ++ Text.ofNat options), options, a⟩ ::
        assign (options + 1) positionals as

def isFlag (s : Slot) : Bool := s.argument.quantifier.isFlag

/-- The fewest words a positional takes; a delimited list is one word. -/
def least (s : Slot) : Nat :=
  match s.argument.delimiter, s.argument.quantifier with
  | some _, .any => 0
  | some _, .atLeastOne => 1
  | _, q => q.least

def most? (s : Slot) : Option Nat :=
  match s.argument.delimiter, s.argument.quantifier with
  | some _, .any => some 1
  | some _, .atLeastOne => some 1
  | _, q => q.most?

end Slot

namespace Pattern

def slots (p : Pattern) : List Slot :=
  Slot.assign 0 0 (p.arguments ++ p.groups.flatMap Group.members)

def optionSlots (p : Pattern) : List Slot := p.slots.filter (!·.argument.positional)

def positionalSlots (p : Pattern) : List Slot := p.slots.filter (·.argument.positional)

/-- Every spelling with its option; of two options with one spelling the later counts. -/
def spellings (p : Pattern) : List (Text × Slot) :=
  (p.optionSlots.flatMap fun s => s.argument.spellings.map (·, s)).reverse

def groupSlots : List Group → List Slot → List (Group × List Slot)
  | [], _ => []
  | g :: gs, slots =>
    (g, slots.take g.members.length) :: groupSlots gs (slots.drop g.members.length)

end Pattern

namespace Matching

/-- A dash with something behind it. -/
def isOptionLike : Text → Bool
  | '-' :: _ :: _ => true
  | _ => false

/-- The option of a name. A long name may be shortened as long as it means one option. -/
def findOption (spellings : List (Text × Slot)) (name : Text) : Except Mismatch Slot :=
  match spellings.lookup name with
  | some s => .ok s
  | none =>
    if "--".toList.isPrefixOf name then
      match spellings.filterMap fun (known, _) =>
          if name.isPrefixOf known then spellings.lookup known else none with
      | [] => .error (.unknownOption name)
      | s :: others =>
        if others.all (·.place = s.place) then .ok s else .error (.ambiguousOption name)
    else .error (.unknownOption name)

/-- What one occurrence of an option binds, and how many of the words after it are its values. -/
def occurrence (s : Slot) (attached : Option Text) (following : List Text) :
    Except Mismatch (Assignment × Nat) :=
  let name := s.variableName
  if s.isFlag then
    if attached.isSome then .error (.flagValue name) else .ok (.put name (.flag true), 0)
  else
    match s.argument.quantifier, s.argument.delimiter with
    | .optional, delimiter =>
      match attached, delimiter with
      | none, _ => .ok (.put name (.list []), 0)
      | some value, none => .ok (.put name (.text value), 0)
      | some value, some d => .ok (.put name (.list (Text.items d value)), 0)
    | _, some d =>
      match attached, following with
      | some value, _ => .ok (.extend name (Text.items d value), 0)
      | none, value :: _ => .ok (.extend name (Text.items d value), 1)
      | none, [] => .error (.noValue name)
    | .exactly count, none =>
      let missing := count - attached.toList.length
      if following.length < missing then .error (.fewOptionValues count name)
      else
        match attached.toList ++ following.take missing with
        | [value] => .ok (.put name (.text value), missing)
        | values => .ok (.put name (.list values), missing)
    | q, none =>
      let run := following.takeWhile (!isOptionLike ·)
      let values := attached.toList ++ run
      if q = .atLeastOne ∧ values = [] then .error (.noValue name)
      else .ok (.extend name values, run.length)

/-- The letters after the first one of a cluster of flags; a letter that takes a value ends it,
and what follows it is that value. -/
def cluster (spellings : List (Text × Slot)) (letters : Text) (following : List Text) :
    Except Mismatch (List Assignment × Nat) :=
  match letters with
  | [] => .ok ([], 0)
  | c :: cs => do
    let s ← findOption spellings ['-', c]
    if s.isFlag then
      let (assignments, used) ← cluster spellings cs following
      return (.put s.variableName (.flag true) :: assignments, used)
    else
      let (a, used) ← occurrence s (if cs = [] then none else some cs) following
      return ([a], used)

def optionWord (spellings : List (Text × Slot)) (word : Text) (following : List Text) :
    Except Mismatch (List Assignment × Nat) := do
  if "--".toList.isPrefixOf word then
    let (name, attached) := match Text.cutAt ['='] word with
      | some (name, value) => (name, some value)
      | none => (word, none)
    let s ← findOption spellings name
    let (a, used) ← occurrence s attached following
    return ([a], used)
  else
    let s ← findOption spellings (word.take 2)
    match word.drop 2 with
    | [] =>
      let (a, used) ← occurrence s none following
      return ([a], used)
    | tail =>
      if s.isFlag then
        let (assignments, used) ← cluster spellings tail following
        return (.put s.variableName (.flag true) :: assignments, used)
      else
        let (a, used) ← occurrence s (some tail) following
        return ([a], used)

/-- The assignments of all options, and the words that are left for the positionals. -/
def scanOptions (spellings : List (Text × Slot)) (words : List Text) :
    Except Mismatch (List Assignment × List Text) :=
  match words with
  | [] => .ok ([], [])
  | word :: following =>
    if word = "--".toList then .ok ([], following)
    else if isOptionLike word then do
      let (assignments, used) ← optionWord spellings word following
      let (more, positionals) ← scanOptions spellings (following.drop used)
      return (assignments ++ more, positionals)
    else do
      let (assignments, positionals) ← scanOptions spellings following
      return (assignments, word :: positionals)
termination_by words.length
decreasing_by
  · simp only [List.length_drop, List.length_cons]; omega
  · simp

def leastTotal : List Slot → Nat
  | [] => 0
  | s :: slots => s.least + leastTotal slots

def allocate : List Slot → List Text → Except Mismatch (List (Slot × List Text))
  | [], [] => .ok []
  | [], words => .error (.leftOver words)
  | s :: slots, words =>
    let available := words.length - leastTotal slots
    let taken := match s.most? with
      | some most => min most available
      | none => available
    if taken < s.least then .error (.fewPositionals s.least s.variableName)
    else do
      let rest ← allocate slots (words.drop taken)
      return (s, words.take taken) :: rest

def positionalValue (s : Slot) (words : List Text) : Value :=
  match s.argument.delimiter, s.argument.quantifier, words with
  | some d, _, _ => .list (words.flatMap (Text.items d))
  | none, .exactly 1, word :: _ => .text word
  | none, .flag, _ => .flag false
  | none, _, _ => .list words

/-- Flags that did not occur are unset; other options may be missing unless they are required. -/
def completeOptions (b : Bindings) : List Slot → Except Mismatch Bindings
  | [] => .ok b
  | s :: slots =>
    if (b.get? s.variableName).isSome then completeOptions b slots
    else if s.isFlag then completeOptions (b.put s.variableName (.flag false)) slots
    else if s.argument.required then .error (.requiredOption s.variableName)
    else completeOptions b slots

/-- Every required group has a member that is set. -/
def checkGroups (b : Bindings) : List (Group × List Slot) → Except Mismatch Unit
  | [] => .ok ()
  | (g, slots) :: rest =>
    if g.required ∧ !slots.any fun s => ((b.get? s.variableName).map Value.isSet).getD false then
      .error (.requiredGroup (g.members.flatMap Argument.spellings))
    else checkGroups b rest

def dropSubcommands : List Text → List Text → Except Mismatch (List Text)
  | [], words => .ok words
  | s :: subcommands, word :: words =>
    if word = s then dropSubcommands subcommands words else .error (.subcommand s)
  | s :: _, [] => .error (.subcommand s)

end Matching

namespace Pattern

open Matching in
def bind (p : Pattern) (words : List Text) : Except Mismatch Bindings := do
  match words with
  | [] => .error .noCommand
  | command :: rest =>
    if command ≠ p.command then .error (.command command)
    else
      let rest ← dropSubcommands p.subcommands rest
      let (assignments, words) ← scanOptions p.spellings rest
      let slices ← allocate p.positionalSlots words
      let positionals := slices.map fun (s, words) =>
        Assignment.put s.variableName (positionalValue s words)
      let b ← completeOptions (Assignment.applyAll [] (assignments ++ positionals)) p.optionSlots
      checkGroups b (groupSlots p.groups (p.slots.drop p.arguments.length))
      return b

end Pattern
end Countermand

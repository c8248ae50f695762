import Countermand.FileSystem.Tree
import Countermand.Proofs.Expression.Completeness
import Countermand.Proofs.Expression.Scanning
import Countermand.Proofs.Pattern.Capturing
import Countermand.Proofs.Session
import Countermand.Proofs.Template.Broadcast
import Countermand.Proofs.Template.Cutting
import Countermand.Proofs.Text.Words
import Countermand.Undoing

/-! The way of a captured argument: from the command line through a pattern and a template to the
program that is started. The value is put into the undo command as it is, and splitting that
command splits the value as well. -/
namespace Countermand
open Results

namespace Token

/-- An identifier is no name of a call, since these have small letters. -/
theorem isValid_word {name : Text} (h : Specification.IsIdentifier name) :
    (Lexeme.word name).IsValid := by
  have small (c : Char) (hc : c.isUpper = false) (rest : Text) : name ≠ c :: rest := by
    rintro rfl
    simp [Specification.IsIdentifier, hc] at h
  refine ⟨?_, ?_, fun op => ?_, fun k => ?_⟩
  · cases name with
    | nil => simp [Specification.IsIdentifier] at h
    | cons c cs =>
      have hupper : c.isUpper = true := by simpa using h.1
      simp [Char.isAlphanum, Char.isAlpha, hupper]
  · intro c hc
    have := h.2 c hc
    simp only [Specification.isIdentifierCharacter, Bool.or_eq_true] at this
    rcases this with (hu | hd) | hu <;> simp [isWordCharacter, Char.isAlphanum, Char.isAlpha, *]
  · cases op <;> exact small _ (by decide) _
  · cases k <;> exact small _ (by decide) _

end Token

namespace Expression

theorem parse_isIdentifier {name : Text} (h : Specification.IsIdentifier name) :
    parse ('$' :: name) = .ok (.access name .plain) := by
  have hname : Token.scan 2 name = .ok [⟨.word name, 2⟩] := by
    have hnone : ∀ c ∈ ([] : Text).head?, Text.isBlank c = true := by simp
    have hscan := Token.scan_spelling (Token.isValid_word h) (Token.precedes_of_blank hnone _) 2
    rw [List.append_nil, Token.scan_nil] at hscan
    exact hscan
  have ht : Token.ofText ('$' :: name) = .ok [⟨.dollar, 1⟩, ⟨.word name, 2⟩] := by
    have hdollar : Token.lexeme? ('$' :: name) = some (.dollar, name) := rfl
    rw [Token.ofText, Token.scan_cons (by decide) hdollar]
    change Token.scan 2 name >>= _ = _
    rw [hname]
    rfl
  exact parse_complete ht (.access (.inl rfl)) rfl

end Expression

namespace Template

theorem isPlain_of_isCommandWord {w : Text} (h : Pattern.IsCommandWord w) :
    Segment.IsPlain '%' w := by
  intro c hc
  constructor
  · exact Pattern.ne_of_isCommandCharacter (h.2 c hc) (by decide)
  · exact Pattern.ne_of_isCommandCharacter (h.2 c hc) (by decide)

theorem ofTemplate_captured {program name : Text} (hp : Pattern.IsCommandWord program)
    (hn : Pattern.IsCommandWord name) :
    Segment.ofTemplate .percent (program ++ " % $".toList ++ name ++ " %".toList) =
      some [.literal (program ++ [' ']), .fragment (' ' :: '$' :: (name ++ [' ']))] := by
  have hliteral : Segment.IsPlain '%' (program ++ [' ']) := by
    intro c hc
    rcases List.mem_append.mp hc with hc | hc
    · exact isPlain_of_isCommandWord hp c hc
    · obtain rfl := List.mem_singleton.mp hc
      decide
  have hfragment : Segment.IsPlain '%' (' ' :: '$' :: (name ++ [' '])) := by
    intro c hc
    simp only [List.mem_cons, List.mem_append, List.not_mem_nil, or_false] at hc
    rcases hc with rfl | rfl | hc | rfl
    · decide
    · decide
    · exact isPlain_of_isCommandWord hn c hc
    · decide
  have hwritten : Segment.AreWritten '%'
      [.literal (program ++ [' ']), .fragment (' ' :: '$' :: (name ++ [' ']))] :=
    ⟨⟨by simp, hliteral⟩, trivial, hfragment, trivial⟩
  have hcut := Segment.ofTemplate_written (by decide) _ hwritten
  simpa [Segment.spelling, Markers.percent] using hcut

theorem trim_captured {name : Text} (hn : Pattern.IsCommandWord name) :
    Text.trim (' ' :: '$' :: (name ++ [' '])) = '$' :: name := by
  have hblank : Text.trimEnd ('$' :: (name ++ [' '])) = Text.trimEnd ('$' :: name) := by
    rw [← List.cons_append, Text.trimEnd, List.reverse_append]
    rfl
  have hlast : ∀ c ∈ ('$' :: name).getLast?, Text.isBlank c = false := by
    intro c hc
    rcases List.mem_cons.mp (List.mem_of_getLast? hc) with rfl | hc
    · decide
    · exact Pattern.isBlank_of_isCommandCharacter (hn.2 c hc)
  exact hblank.trans (Text.trimEnd_eq_self hlast)

/-- Behind the word of a program a captured text stands as it is. -/
theorem expand_captured (host : Host) {program name : Text} (value : Text)
    (hp : Pattern.IsCommandWord program) (hn : Specification.IsIdentifier name) :
    expand host [(name, .text value)] .percent none
      (program ++ " % $".toList ++ name ++ " %".toList) =
    .ok (.single (program ++ ' ' :: value)) := by
  have hsegments := ofTemplate_captured hp hn.isCommandWord
  have htrim := trim_captured hn.isCommandWord
  have hvalue : (Expression.access name .plain).evaluate host [(name, .text value)] =
      .ok (.text value) := by
    have hlookup : Expression.lookup [(name, .text value)] name = .text value := by
      simp [Expression.lookup, Bindings.get?_cons, Value.display]
    simp [Expression.evaluate, Expression.evaluateWith, Expression.evaluateName, hlookup]
  rw [expand_eq]
  simp only [expandWith, hsegments, pieces, fragmentPiece_eq, htrim,
    Expression.parse_isIdentifier hn, Except.mapError, ok_bind, Expression.kind, hvalue]
  change Except.ok (Expanded.single (program ++ [' '] ++ (value ++ []))) = _
  rw [List.append_nil, List.append_assoc]
  rfl

end Template

namespace Registry
variable {search : Search} {shell : Text} {words : List Text} {registry : Registry}

/-- A search gets as far as a registry: it goes through all of them, or none before has an
answer. -/
def IsReached (search : Search) (shell : Text) (words : List Text) (registry : Registry)
    (registries : List Registry) : Prop :=
  ∃ before after, registries = before ++ registry :: after ∧
    (search.exhaustive = true ∨ ∀ r ∈ before, r.resolutions search shell words = [])

theorem mem_resolve {registries : List Registry}
    (h : registry.IsReached search shell words registries) {r : Resolution}
    (hr : r ∈ registry.resolutions search shell words) :
    r ∈ resolve search shell words registries := by
  obtain ⟨before, after, rfl, hbefore⟩ := h
  induction before with
  | nil =>
    rw [List.nil_append, resolve]
    split_ifs
    · exact hr
    · exact List.mem_append_left _ hr
  | cons first before ih =>
    have hrest := ih (hbefore.imp_right fun h q hq => h q (List.mem_cons_of_mem first hq))
    rw [List.cons_append, resolve]
    split_ifs with hstop
    · rcases hbefore with hall | hnone
      · simp [hall] at hstop
      · exact absurd (hnone first (by simp)) hstop.1
    · exact List.mem_append_right _ hrest

theorem mem_resolutions {entry : Entry} {b : Bindings} (hs : registry.supports shell = true)
    (he : entry ∈ registry.entries) (hp : entry.precise = true ∨ search.imprecise = true)
    (hb : entry.bind? words = some b) :
    ⟨b, entry, registry.path⟩ ∈ registry.resolutions search shell words := by
  rw [resolutions, if_pos hs, List.mem_filterMap]
  exact ⟨entry, he, by rw [if_pos (by simpa using hp), hb]; rfl⟩

end Registry

namespace Text

theorem isWord_of_isCommandWord {w : Text} (h : Pattern.IsCommandWord w) : IsWord w := by
  refine ⟨h.1, ?_, fun c hc => ?_⟩
  · intro hhash
    have := h.2 '#' (List.mem_of_head? hhash)
    exact absurd this (by decide)
  · have other (d : Char) (hd : Pattern.isCommandCharacter d = false) : c ≠ d :=
      Pattern.ne_of_isCommandCharacter (h.2 c hc) hd
    constructor
    · simp [WordPlace.separates, other ' ' (by decide), other '\t' (by decide),
        other '\n' (by decide)]
    · simp [WordPlace.within, other '"' (by decide), other '\x27' (by decide),
        other '\\' (by decide)]

end Text

namespace Undoer

/-- An entry that captures one value for one command, in a registry where a search for the command
line comes to it. -/
structure Captures (u : Undoer) (line shell : Text) (registry : Registry) (entry : Entry)
    (command program name value : Text) : Prop where
  command_word : Pattern.IsCommandWord command
  program_word : Pattern.IsCommandWord program
  identifier : Specification.IsIdentifier name
  pattern : entry.pattern = command ++ " <".toList ++ name ++ ">".toList
  template : entry.template = program ++ " % $".toList ++ name ++ " %".toList
  listed : entry ∈ registry.entries
  eligible : entry.precise = true ∨ u.settings.imprecise = true
  supported : registry.supports shell = true
  reached : registry.IsReached u.settings.search shell [command, value]
    (Registry.loadAll u.host.files u.settings.directories)
  plain : Matching.isOptionLike value = false
  spelled : Text.words? line = some [command, value]

variable {u : Undoer} {line shell : Text} {registry : Registry} {entry : Entry}
  {command program name value : Text}

def captured (registry : Registry) (program value : Text) : Candidate :=
  ⟨[program ++ ' ' :: value], program ++ ' ' :: value, registry.path⟩

theorem Captures.bind? (h : u.Captures line shell registry entry command program name value) :
    entry.bind? [command, value] = some [(name, .text value)] := by
  have hread := Pattern.read_capturing h.command_word h.identifier
  rw [← h.pattern] at hread
  rw [Entry.bind?, hread]
  dsimp only
  rw [Pattern.bind_capturing h.plain]
  rfl

theorem Captures.candidate? (h : u.Captures line shell registry entry command program name value) :
    u.candidate? ⟨[(name, .text value)], entry, registry.path⟩ =
      some (captured registry program value) := by
  have hexpand := Template.expand_captured u.host value h.program_word h.identifier
  rw [← h.template] at hexpand
  rw [Undoer.candidate?, hexpand]
  simp [Expanded.commands, captured]

theorem Captures.mem_candidates
    (h : u.Captures line shell registry entry command program name value) :
    ∃ candidates, u.candidates line shell = .ok candidates ∧
      captured registry program value ∈ candidates := by
  have hspelled : Invocation.ofCommand line = .ok ⟨command, [value]⟩ := by
    rw [Invocation.ofCommand, h.spelled]
  have hmem := Registry.mem_resolve h.reached
    (Registry.mem_resolutions h.supported h.listed h.eligible h.bind?)
  refine ⟨_, by rw [candidates, hspelled]; rfl, ?_⟩
  exact List.mem_filterMap.mpr ⟨_, hmem, h.candidate?⟩

theorem Captures.runAll (h : u.Captures line shell registry entry command program name value)
    (s : Session) :
    Session.runAll u.programs (captured registry program value).commands s =
      match Text.words? value with
      | none => (.error (.unsplittable (program ++ ' ' :: value)), s)
      | some arguments =>
        if u.programs.present s.invocations program = true then
          (Session.verdict (program ++ ' ' :: value)
            (u.programs.start s.invocations ⟨program, arguments⟩), s.recorded ⟨program, arguments⟩)
        else (.error (.programMissing program), s) := by
  have hsplit := Text.words?_word_blank (Text.isWord_of_isCommandWord h.program_word) value
  rw [captured, Session.runAll_singleton]
  cases hv : Text.words? value with
  | none =>
    rw [hv] at hsplit
    exact Session.run_of_unspelled (by rw [Invocation.ofCommand, hsplit]; rfl)
  | some arguments =>
    rw [hv] at hsplit
    exact Session.run_of_spelled (by rw [Invocation.ofCommand, hsplit]; rfl)

/-- A captured value is put into the undo command as it is, and the program is handed the words of
the value. That is the value itself exactly if it is one word without quotes; a value that cannot
be split keeps the command from being run. -/
theorem capture_hands_words
    (h : u.Captures line shell registry entry command program name value) :
    ∃ candidates candidate, u.candidates line shell = .ok candidates ∧ candidate ∈ candidates ∧
      ((entry.bind? [command, value]).bind fun b =>
        u.candidate? ⟨b, entry, registry.path⟩) = some candidate ∧
      candidate.commands = [program ++ ' ' :: value] ∧
      (∀ s, Session.runAll u.programs candidate.commands s =
        match Text.words? value with
        | none => (.error (.unsplittable (program ++ ' ' :: value)), s)
        | some arguments =>
          if u.programs.present s.invocations program = true then
            (Session.verdict (program ++ ' ' :: value)
              (u.programs.start s.invocations ⟨program, arguments⟩),
              s.recorded ⟨program, arguments⟩)
          else (.error (.programMissing program), s)) ∧
      (Text.words? value = some [value] ↔ Text.IsWord value) := by
  obtain ⟨candidates, hc, hmem⟩ := h.mem_candidates
  have hcandidate : ((entry.bind? [command, value]).bind fun b =>
      u.candidate? ⟨b, entry, registry.path⟩) = some (captured registry program value) := by
    rw [h.bind?]
    exact h.candidate?
  exact ⟨candidates, captured registry program value, hc, hmem, hcandidate, rfl, h.runAll,
    Text.words?_eq_singleton_iff⟩

def shelfEntry : Entry := ⟨"mkdir <X>".toList, "rmdir % $X %".toList, true⟩

def shelfRegistry : Registry := ⟨"reg/registry.toml".toList, .one ShellSet.every, [shelfEntry]⟩

def shelfDocument : Text :=
  "[[entry]]\ncmd = \"mkdir <X>\"\nundo = \"rmdir % $X %\"\nprecise = true\n".toList

/-- A machine with one registry, on which every program ends well. -/
def shelf : Undoer where
  host := ⟨FileSystem.Tree.fileSystem [(["reg".toList], .directory),
    (["reg".toList, "registry.toml".toList],
      .file (shelfDocument.map fun c => c.toNat.toUInt8))] [], "/".toList, []⟩
  programs := ⟨fun _ _ => true, fun _ _ => .ok 0, fun _ _ => .ok (0, [])⟩
  settings := { Settings.defaults with directories := ["reg".toList] }
  callingShell := some "bash".toList

theorem loadAll_shelf :
    Registry.loadAll shelf.host.files shelf.settings.directories = [shelfRegistry] := by
  cbv

theorem captures_shelf (hp : Matching.isOptionLike value = false)
    (hs : Text.words? line = some ["mkdir".toList, value]) :
    shelf.Captures line "bash".toList shelfRegistry shelfEntry "mkdir".toList "rmdir".toList
      "X".toList value where
  command_word := by decide
  program_word := by decide
  identifier := by decide
  pattern := rfl
  template := rfl
  listed := List.mem_singleton_self shelfEntry
  eligible := .inl rfl
  supported := rfl
  reached := ⟨[], [], loadAll_shelf, .inr (by simp)⟩
  plain := hp
  spelled := hs

theorem candidates_shelf (hp : Matching.isOptionLike value = false)
    (hs : Text.words? line = some ["mkdir".toList, value]) :
    shelf.candidates line "bash".toList =
      .ok [captured shelfRegistry "rmdir".toList value] := by
  have h := captures_shelf hp hs
  have hspelled : Invocation.ofCommand line = .ok ⟨"mkdir".toList, [value]⟩ := by
    rw [Invocation.ofCommand, hs]
  have hresolve : Registry.resolve shelf.settings.search "bash".toList ["mkdir".toList, value]
      [shelfRegistry] = [⟨[("X".toList, .text value)], shelfEntry, shelfRegistry.path⟩] := by
    have hfound : shelfRegistry.resolutions shelf.settings.search "bash".toList
        ["mkdir".toList, value] =
        [⟨[("X".toList, .text value)], shelfEntry, shelfRegistry.path⟩] := by
      rw [Registry.resolutions, if_pos h.supported]
      change List.filterMap _ [shelfEntry] = _
      rw [List.filterMap_cons, if_pos (by decide), h.bind?]
      rfl
    rw [Registry.resolve, hfound, if_pos ⟨List.cons_ne_nil _ _, rfl⟩]
  rw [candidates, hspelled, ok_bind, loadAll_shelf, Invocation.words]
  dsimp only
  rw [hresolve, List.filterMap_cons, h.candidate?]
  rfl

theorem captured_blank_is_split :
    shelf.Captures "mkdir 'a b'".toList "bash".toList shelfRegistry shelfEntry "mkdir".toList
        "rmdir".toList "X".toList "a b".toList ∧
      shelf.candidates "mkdir 'a b'".toList "bash".toList =
        .ok [⟨["rmdir a b".toList], "rmdir a b".toList, "reg/registry.toml".toList⟩] ∧
      Session.runAll shelf.programs ["rmdir a b".toList] ⟨[], [], []⟩ =
        (.ok (), ⟨[], [], [⟨"rmdir".toList, ["a".toList, "b".toList]⟩]⟩) ∧
      ["a".toList, "b".toList] ≠ ["a b".toList] := by
  have hsplit : Text.words? "mkdir 'a b'".toList = some ["mkdir".toList, "a b".toList] := by
    decide
  have hwords : Text.words? "a b".toList = some ["a".toList, "b".toList] := by decide
  have hcommand : "rmdir".toList ++ ' ' :: "a b".toList = "rmdir a b".toList := by decide
  have h := captures_shelf (by decide) hsplit
  have hcandidates := candidates_shelf (by decide) hsplit
  have hrun := h.runAll ⟨[], [], []⟩
  rw [hwords] at hrun
  simp only [captured, hcommand] at hcandidates hrun
  exact ⟨h, hcandidates, hrun, by decide⟩

theorem capture_hands_words_build :
    shelf.Captures "mkdir build".toList "bash".toList shelfRegistry shelfEntry "mkdir".toList
        "rmdir".toList "X".toList "build".toList ∧
      ∃ candidates candidate, shelf.candidates "mkdir build".toList "bash".toList =
          .ok candidates ∧ candidate ∈ candidates ∧
        candidate.commands = ["rmdir build".toList] ∧
        ∀ s, Session.runAll shelf.programs candidate.commands s =
          (.ok (), s.recorded ⟨"rmdir".toList, ["build".toList]⟩) := by
  have hsplit : Text.words? "mkdir build".toList = some ["mkdir".toList, "build".toList] := by
    decide
  have hwords : Text.words? "build".toList = some ["build".toList] := by decide
  have hcommand : "rmdir".toList ++ ' ' :: "build".toList = "rmdir build".toList := by decide
  have h := captures_shelf (by decide) hsplit
  obtain ⟨candidates, candidate, hc, hm, -, hcommands, hrun, -⟩ := capture_hands_words h
  simp only [hcommand, hwords] at hcommands hrun
  exact ⟨h, candidates, candidate, hc, hm, hcommands, hrun⟩

end Undoer
end Countermand

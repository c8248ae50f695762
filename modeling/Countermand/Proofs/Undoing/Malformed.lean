import Countermand.Proofs.Registry.Resolution
import Countermand.Proofs.Undoing.Capture

/-! Entries with malformed templates. Such an entry never gives a candidate, but its pattern takes
part in the search: where it is the only entry to fit in the first registry that has an answer, the
search stops there, and what later registries have to say is not heard. Nothing else changes when
the entry is deleted. -/
namespace Countermand
open Results

namespace Template

/-- A template that is not cut into segments, or with a fragment that is no expression. -/
def IsMalformed (template : Text) : Prop :=
  ∀ segments, Segment.ofTemplate .percent template = some segments →
    ∃ fragment, .fragment fragment ∈ segments ∧ ∀ e, Expression.parse (Text.trim fragment) ≠ .ok e

variable {host : Host} {b : Bindings} {nested : Text → Except ExpansionError Expanded}

theorem pieces_ne_ok {segments : List Segment} {fragment : Text}
    (hm : .fragment fragment ∈ segments)
    (hf : ∀ e, Expression.parse (Text.trim fragment) ≠ .ok e) (ps : List Piece) :
    pieces host b nested segments ≠ .ok ps := by
  induction segments generalizing ps with
  | nil => simp at hm
  | cons segment segments ih =>
    intro h
    cases segment with
    | literal text =>
      have hrest : Segment.fragment fragment ∈ segments := by simpa using hm
      obtain ⟨more, hmore, -⟩ := bind_eq_ok.mp h
      exact ih hrest more hmore
    | fragment text =>
      obtain ⟨piece, hpiece, hlater⟩ := bind_eq_ok.mp h
      obtain ⟨more, hmore, -⟩ := bind_eq_ok.mp hlater
      rcases List.mem_cons.mp hm with heq | hrest
      · obtain rfl := Segment.fragment.inj heq
        obtain ⟨e, he, -⟩ := bind_eq_ok.mp hpiece
        exact hf e (mapError_eq_ok.mp he)
      · exact ih hrest more hmore

/-- A malformed template expands nowhere, whatever the variables are bound to. -/
theorem IsMalformed.expand_ne_ok {template : Text} (h : IsMalformed template) (host : Host)
    (b : Bindings) (separator : Option Text) (expanded : Expanded) :
    expand host b .percent separator template ≠ .ok expanded := by
  rw [expand_eq, expandWith]
  cases hcut : Segment.ofTemplate .percent template with
  | none => simp
  | some segments =>
    intro hexpanded
    obtain ⟨fragment, hm, hf⟩ := h segments hcut
    obtain ⟨ps, hps, -⟩ := bind_eq_ok.mp hexpanded
    exact pieces_ne_ok hm hf ps hps

end Template

namespace Undoer
variable {u : Undoer} {line shell path : Text} {shells : ShellSet} {words : List Text}
  {bad : Entry} {pre post : List Entry}

/-- The candidates for a command among given registries. -/
def candidatesAmong (u : Undoer) (registries : List Registry) (line shell : Text) :
    Except Failure (List Candidate) := do
  let i ← Invocation.ofCommand line
  return (Registry.resolve u.settings.search shell i.words registries).filterMap u.candidate?

theorem candidates_eq (u : Undoer) (line shell : Text) :
    u.candidates line shell =
      u.candidatesAmong (Registry.loadAll u.host.files u.settings.directories) line shell := rfl

/-- An entry takes the place of the answers of all later registries without giving one of its own:
the search stops at its registry, where no other entry fits. -/
structure Hides (u : Undoer) (before : List Registry) (path : Text) (shells : ShellSet)
    (pre : List Entry) (bad : Entry) (post : List Entry) (words : List Text) (shell : Text) :
    Prop where
  stops : u.settings.search.exhaustive = false
  first : ∀ registry ∈ before, registry.resolutions u.settings.search shell words = []
  fits : Registry.resolutions u.settings.search shell words ⟨path, shells, pre ++ bad :: post⟩ ≠ []
  alone : Registry.resolutions u.settings.search shell words ⟨path, shells, pre ++ post⟩ = []

theorem candidate?_of_isMalformed {r : Resolution} (h : Template.IsMalformed r.entry.template) :
    u.candidate? r = none := by
  rw [candidate?]
  cases hexpand : Template.expand u.host r.bindings .percent none r.entry.template with
  | error e => rfl
  | ok expanded => exact absurd hexpand (h.expand_ne_ok u.host r.bindings none expanded)

/-- Deleting a malformed entry takes no candidate from its own registry. -/
theorem filterMap_candidate?_delete (h : Template.IsMalformed bad.template) :
    (Registry.resolutions u.settings.search shell words
        ⟨path, shells, pre ++ bad :: post⟩).filterMap u.candidate? =
      (Registry.resolutions u.settings.search shell words
        ⟨path, shells, pre ++ post⟩).filterMap u.candidate? := by
  rw [Registry.resolutions_eq, Registry.resolutions_eq]
  split_ifs
  · have hbad :
        (Registry.resolution? u.settings.search path words bad).bind u.candidate? = none := by
      cases hr : Registry.resolution? u.settings.search path words bad with
      | none => rfl
      | some r =>
        refine candidate?_of_isMalformed ?_
        rw [Registry.entry_of_resolution? hr]
        exact h
    have hskip : (bad :: post).filterMap (fun entry =>
        (Registry.resolution? u.settings.search path words entry).bind u.candidate?) = _ :=
      List.filterMap_cons_none hbad
    rw [List.filterMap_filterMap, List.filterMap_filterMap, List.filterMap_append,
      List.filterMap_append, hskip]
  · rfl

theorem resolutions_delete_eq_nil
    (h : Registry.resolutions u.settings.search shell words
      ⟨path, shells, pre ++ bad :: post⟩ = []) :
    Registry.resolutions u.settings.search shell words ⟨path, shells, pre ++ post⟩ = [] := by
  rw [Registry.resolutions_eq] at h ⊢
  split_ifs at h ⊢
  · rw [List.filterMap_append, List.append_eq_nil_iff] at h ⊢
    refine ⟨h.1, List.filterMap_eq_nil_iff.mpr fun entry he => ?_⟩
    exact List.filterMap_eq_nil_iff.mp h.2 entry (List.mem_cons_of_mem bad he)
  · rfl

theorem found_delete_iff {before after : List Registry} (h : Template.IsMalformed bad.template) :
    (Registry.resolve u.settings.search shell words
        (before ++ ⟨path, shells, pre ++ bad :: post⟩ :: after)).filterMap u.candidate? =
      (Registry.resolve u.settings.search shell words
        (before ++ ⟨path, shells, pre ++ post⟩ :: after)).filterMap u.candidate? ↔
    ¬ (u.Hides before path shells pre bad post words shell ∧
      (Registry.resolve u.settings.search shell words after).filterMap u.candidate? ≠ []) := by
  have hsame : (Registry.resolutions u.settings.search shell words
      ⟨path, shells, pre ++ bad :: post⟩).filterMap u.candidate? = _ :=
    filterMap_candidate?_delete h
  rw [Registry.resolve_append, Registry.resolve_append before]
  by_cases hstops : u.settings.search.exhaustive = false
  swap
  · -- every registry is heard, and the entry's own one says the same without it
    have hnever : ¬ u.Hides before path shells pre bad post words shell := fun h => hstops h.stops
    simp [Registry.resolve, hstops, hsame, hnever]
  by_cases hbefore : Registry.resolve u.settings.search shell words before = []
  swap
  · have hnever : ¬ u.Hides before path shells pre bad post words shell :=
      fun h => hbefore (Registry.resolve_eq_nil_iff.mpr h.first)
    simp [hstops, hbefore, hnever]
  have hfirst := Registry.resolve_eq_nil_iff.mp hbefore
  simp only [hbefore, ne_eq, not_true_eq_false, if_false, List.nil_append,
    Registry.resolve, hstops, and_true]
  by_cases hfits : Registry.resolutions u.settings.search shell words
      ⟨path, shells, pre ++ bad :: post⟩ = []
  · have hnever : ¬ u.Hides before path shells pre bad post words shell := fun h => h.fits hfits
    simp [hfits, resolutions_delete_eq_nil hfits, hnever]
  by_cases halone : Registry.resolutions u.settings.search shell words
      ⟨path, shells, pre ++ post⟩ = []
  · have hhides : u.Hides before path shells pre bad post words shell :=
      ⟨hstops, hfirst, hfits, halone⟩
    simp only [hfits, halone, hhides, hsame, not_true_eq_false, not_false_eq_true, if_true,
      if_false, List.filterMap_nil, List.nil_append, true_and, not_not]
    exact eq_comm
  · have hnever : ¬ u.Hides before path shells pre bad post words shell :=
      fun h => halone h.alone
    simp [hfits, halone, hsame, hnever]

/-- Deleting an entry whose template is malformed changes what is found for a command exactly if
the entry keeps the search from going on to registries that have candidates. -/
theorem candidatesAmong_delete_iff {before after : List Registry}
    (h : Template.IsMalformed bad.template) :
    u.candidatesAmong (before ++ ⟨path, shells, pre ++ bad :: post⟩ :: after) line shell =
      u.candidatesAmong (before ++ ⟨path, shells, pre ++ post⟩ :: after) line shell ↔
    ∀ i, Invocation.ofCommand line = .ok i →
      u.Hides before path shells pre bad post i.words shell →
      u.candidatesAmong after line shell = .ok [] := by
  cases hspelled : Invocation.ofCommand line with
  | error e => simp [candidatesAmong, hspelled]
  | ok i =>
    have hfound := @found_delete_iff u shell path shells i.words bad pre post before after h
    simpa [candidatesAmong, hspelled, not_and_or, or_iff_not_imp_left] using hfound

def namelessEntry : Entry := ⟨"mkdir <X>".toList, "rmdir % $ %".toList, true⟩

theorem isMalformed_nameless : Template.IsMalformed namelessEntry.template := by
  intro segments hcut
  have hwritten : Segment.AreWritten '%' [.literal "rmdir ".toList, .fragment " $ ".toList] := by
    decide
  have hsegments : some segments = some [.literal "rmdir ".toList, .fragment " $ ".toList] :=
    hcut.symm.trans (Segment.ofTemplate_written (by decide) _ hwritten)
  obtain rfl := Option.some.inj hsegments
  refine ⟨" $ ".toList, by simp, fun e he => ?_⟩
  have hparse : Expression.parse (Text.trim " $ ".toList) = .error .endOfInput := by cbv
  rw [hparse] at he
  simp at he

def shelves (first second : Text) : Undoer := { shelf with
  host := ⟨FileSystem.Tree.fileSystem [(["reg".toList], .directory),
    (["reg".toList, "a.toml".toList], .file (first.map fun c => c.toNat.toUInt8)),
    (["reg".toList, "b.toml".toList], .file (second.map fun c => c.toNat.toUInt8))] [],
    "/".toList, []⟩ }

def namelessDocument : Text :=
  "[[entry]]\ncmd = \"mkdir <X>\"\nundo = \"rmdir % $ %\"\nprecise = true\n".toList

theorem loadAll_nameless :
    Registry.loadAll (shelves namelessDocument shelfDocument).host.files ["reg".toList] =
      [⟨"reg/a.toml".toList, .one ShellSet.every, [namelessEntry]⟩,
        ⟨"reg/b.toml".toList, .one ShellSet.every, [shelfEntry]⟩] := by
  cbv

theorem loadAll_mended :
    Registry.loadAll (shelves [] shelfDocument).host.files ["reg".toList] =
      [⟨"reg/a.toml".toList, .one ShellSet.every, []⟩,
        ⟨"reg/b.toml".toList, .one ShellSet.every, [shelfEntry]⟩] := by
  cbv

theorem resolve_of_mkdir {entry : Entry} (hb : entry.pattern = "mkdir <X>".toList)
    (hp : entry.precise = true) (path : Text) (more : List Registry) :
    Registry.resolve shelf.settings.search "bash".toList ["mkdir".toList, "build".toList]
        (⟨path, .one ShellSet.every, [entry]⟩ :: more) =
      [⟨[("X".toList, .text "build".toList)], entry, path⟩] := by
  have hbind : entry.bind? ["mkdir".toList, "build".toList] =
      some [("X".toList, .text "build".toList)] := by
    rw [Entry.bind?, hb]
    cbv
  have hfound : Registry.resolutions shelf.settings.search "bash".toList
      ["mkdir".toList, "build".toList] ⟨path, .one ShellSet.every, [entry]⟩ =
      [⟨[("X".toList, .text "build".toList)], entry, path⟩] := by
    rw [Registry.resolutions_eq, if_pos (by decide), List.filterMap_cons, Registry.resolution?, hp,
      hbind]
    rfl
  rw [Registry.resolve, hfound, if_pos ⟨by simp, rfl⟩]

theorem candidates_of_mkdir {u : Undoer} {registries : List Registry}
    (hs : u.settings.search = shelf.settings.search)
    (hl : Registry.loadAll u.host.files u.settings.directories = registries) :
    u.candidates "mkdir build".toList "bash".toList =
      .ok ((Registry.resolve shelf.settings.search "bash".toList
        ["mkdir".toList, "build".toList] registries).filterMap u.candidate?) := by
  have hspelled : Invocation.ofCommand "mkdir build".toList =
      .ok ⟨"mkdir".toList, ["build".toList]⟩ := by decide
  rw [candidates_eq, candidatesAmong, hspelled, hs, hl]
  rfl

theorem candidate?_of_mkdir (u : Undoer) (path : Text) :
    u.candidate? ⟨[("X".toList, .text "build".toList)], shelfEntry, path⟩ =
      some ⟨["rmdir build".toList], "rmdir build".toList, path⟩ := by
  have htemplate : shelfEntry.template =
      "rmdir".toList ++ " % $".toList ++ "X".toList ++ " %".toList := rfl
  have hcommand : "rmdir".toList ++ ' ' :: "build".toList = "rmdir build".toList := by decide
  rw [candidate?, htemplate, Template.expand_captured _ _ (by decide) (by decide), hcommand]
  simp [Expanded.commands]

/-- A malformed entry in the first registry hides the candidate of the second one, which is found
once the entry is deleted. -/
theorem nameless_hides_rmdir :
    Template.IsMalformed namelessEntry.template ∧
      Registry.loadAll (shelves namelessDocument shelfDocument).host.files ["reg".toList] =
        [⟨"reg/a.toml".toList, .one ShellSet.every, [namelessEntry]⟩,
          ⟨"reg/b.toml".toList, .one ShellSet.every, [shelfEntry]⟩] ∧
      Registry.loadAll (shelves [] shelfDocument).host.files ["reg".toList] =
        [⟨"reg/a.toml".toList, .one ShellSet.every, []⟩,
          ⟨"reg/b.toml".toList, .one ShellSet.every, [shelfEntry]⟩] ∧
      (shelves namelessDocument shelfDocument).candidates "mkdir build".toList "bash".toList =
        .ok [] ∧
      (shelves [] shelfDocument).candidates "mkdir build".toList "bash".toList =
        .ok [⟨["rmdir build".toList], "rmdir build".toList, "reg/b.toml".toList⟩] := by
  refine ⟨isMalformed_nameless, loadAll_nameless, loadAll_mended, ?_, ?_⟩
  · have hnone : (shelves namelessDocument shelfDocument).candidate?
        ⟨[("X".toList, .text "build".toList)], namelessEntry, "reg/a.toml".toList⟩ = none :=
      candidate?_of_isMalformed isMalformed_nameless
    rw [candidates_of_mkdir (u := shelves namelessDocument shelfDocument) rfl loadAll_nameless,
      resolve_of_mkdir rfl rfl, List.filterMap_cons_none hnone]
    rfl
  · have hempty : Registry.resolve shelf.settings.search "bash".toList
        ["mkdir".toList, "build".toList]
        [⟨"reg/a.toml".toList, .one ShellSet.every, []⟩,
          ⟨"reg/b.toml".toList, .one ShellSet.every, [shelfEntry]⟩] =
        [⟨[("X".toList, .text "build".toList)], shelfEntry, "reg/b.toml".toList⟩] := by
      have hnothing : Registry.resolutions shelf.settings.search "bash".toList
          ["mkdir".toList, "build".toList] ⟨"reg/a.toml".toList, .one ShellSet.every, []⟩ = [] := by
        rw [Registry.resolutions_eq, List.filterMap_nil, ite_self]
      rw [Registry.resolve, hnothing, if_neg (by simp), List.nil_append,
        resolve_of_mkdir rfl rfl]
    rw [candidates_of_mkdir (u := shelves [] shelfDocument) rfl loadAll_mended, hempty,
      List.filterMap_cons_some (candidate?_of_mkdir _ _)]
    rfl

/-- Behind a registry that has an answer a malformed entry does no harm. -/
theorem candidatesAmong_delete_iff_behind :
    Template.IsMalformed namelessEntry.template ∧
      shelf.candidatesAmong
          ([shelfRegistry] ++
            ⟨"reg/z.toml".toList, .one ShellSet.every, [] ++ namelessEntry :: []⟩ :: [])
          "mkdir build".toList "bash".toList =
        shelf.candidatesAmong
          ([shelfRegistry] ++
            ⟨"reg/z.toml".toList, .one ShellSet.every, [] ++ []⟩ :: [])
          "mkdir build".toList "bash".toList := by
  refine ⟨isMalformed_nameless, (candidatesAmong_delete_iff isMalformed_nameless).mpr ?_⟩
  intro i hi _
  rw [candidatesAmong, hi]
  rfl

end Undoer
end Countermand

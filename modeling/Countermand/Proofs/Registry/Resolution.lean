import Countermand.Proofs.Results
import Countermand.Registry.Resolution

/-! What a search through registries finds. One registry answers with one resolution for each of
its entries that fits and is admitted, in their order; a search for all answers puts those of the
registries together, and any other search ends with the first registry that has one. -/
namespace Countermand
open Results

namespace Entry

def Binds (entry : Entry) (words : List Text) (b : Bindings) : Prop :=
  ∃ pattern, Pattern.read entry.pattern = .ok pattern ∧ pattern.bind words = .ok b

def IsMalformed (entry : Entry) : Prop := ∀ pattern, Pattern.read entry.pattern ≠ .ok pattern

theorem bind?_eq_some_iff {entry : Entry} {words : List Text} {b : Bindings} :
    entry.bind? words = some b ↔ entry.Binds words b := by
  rw [bind?, Binds]
  cases Pattern.read entry.pattern with
  | error e => simp
  | ok pattern => cases h : pattern.bind words <;> simp [h, Except.toOption]

theorem IsMalformed.bind?_eq_none {entry : Entry} (h : entry.IsMalformed) (words : List Text) :
    entry.bind? words = none := by
  rw [bind?]
  cases hread : Pattern.read entry.pattern with
  | error e => rfl
  | ok pattern => exact absurd hread (h pattern)

end Entry

def Search.Admits (search : Search) (entry : Entry) : Prop :=
  entry.precise = true ∨ search.imprecise = true

namespace Registry
variable {search : Search} {shell path : Text} {shells : ShellSet} {words : List Text}

def resolution? (search : Search) (path : Text) (words : List Text) (entry : Entry) :
    Option Resolution :=
  if entry.precise || search.imprecise then
    (entry.bind? words).map fun bindings => ⟨bindings, entry, path⟩
  else none

theorem resolution?_eq_some_iff {entry : Entry} {r : Resolution} :
    resolution? search path words entry = some r ↔
      search.Admits entry ∧ ∃ b, entry.Binds words b ∧ r = ⟨b, entry, path⟩ := by
  rw [resolution?, Search.Admits, ← Bool.or_eq_true]
  split_ifs with hadmitted
  · simp only [hadmitted, true_and, Option.map_eq_some_iff, Entry.bind?_eq_some_iff]
    exact exists_congr fun b => and_congr_right fun _ => eq_comm
  · simp [hadmitted]

theorem resolution?_eq_none_iff {entry : Entry} :
    resolution? search path words entry = none ↔
      ∀ b, entry.Binds words b → ¬search.Admits entry := by
  rw [Option.eq_none_iff_forall_ne_some]
  constructor
  · intro h b hb hadmitted
    exact h _ (resolution?_eq_some_iff.mpr ⟨hadmitted, b, hb, rfl⟩)
  · intro h r hr
    obtain ⟨hadmitted, b, hb, -⟩ := resolution?_eq_some_iff.mp hr
    exact h b hb hadmitted

theorem entry_of_resolution? {entry : Entry} {r : Resolution}
    (h : resolution? search path words entry = some r) : r.entry = entry := by
  obtain ⟨-, b, -, rfl⟩ := resolution?_eq_some_iff.mp h
  rfl

theorem resolutions_eq (entries : List Entry) :
    resolutions search shell words ⟨path, shells, entries⟩ =
      if shells.contains shell = true then entries.filterMap (resolution? search path words)
      else [] := rfl

theorem resolutions_of_supports {registry : Registry} (h : registry.supports shell = true) :
    registry.resolutions search shell words =
      registry.entries.filterMap (resolution? search registry.path words) :=
  if_pos h

theorem resolutions_of_not_supports {registry : Registry} (h : registry.supports shell = false) :
    registry.resolutions search shell words = [] :=
  if_neg (by simp [h])

/-- The answers of entries, in their order: one for each that binds the words and is admitted,
with its bindings, the entry itself and the path of its registry. -/
inductive Answers (search : Search) (words : List Text) (path : Text) :
    List Entry → List Resolution → Prop
  | nil : Answers search words path [] []
  | answer {entry : Entry} {b : Bindings} {entries : List Entry} {found : List Resolution}
    (binds : entry.Binds words b) (admitted : search.Admits entry)
    (more : Answers search words path entries found) :
    Answers search words path (entry :: entries) (⟨b, entry, path⟩ :: found)
  | pass {entry : Entry} {entries : List Entry} {found : List Resolution}
    (unfit : ∀ b, entry.Binds words b → ¬search.Admits entry)
    (more : Answers search words path entries found) :
    Answers search words path (entry :: entries) found

theorem answers_iff {entries : List Entry} {found : List Resolution} :
    Answers search words path entries found ↔
      entries.filterMap (resolution? search path words) = found := by
  constructor
  · intro h
    induction h with
    | nil => rfl
    | answer binds admitted _ ih =>
      rw [List.filterMap_cons_some (resolution?_eq_some_iff.mpr ⟨admitted, _, binds, rfl⟩), ih]
    | pass unfit _ ih => rw [List.filterMap_cons_none (resolution?_eq_none_iff.mpr unfit), ih]
  · rintro rfl
    induction entries with
    | nil => exact .nil
    | cons entry entries ih =>
      cases h : resolution? search path words entry with
      | none =>
        rw [List.filterMap_cons_none h]
        exact .pass (resolution?_eq_none_iff.mp h) ih
      | some r =>
        rw [List.filterMap_cons_some h]
        obtain ⟨admitted, b, binds, rfl⟩ := resolution?_eq_some_iff.mp h
        exact .answer binds admitted ih

/-- A registry for another shell has no answers. -/
def HasAnswers (search : Search) (shell : Text) (words : List Text) (registry : Registry)
    (found : List Resolution) : Prop :=
  registry.supports shell = true ∧ Answers search words registry.path registry.entries found ∨
    registry.supports shell = false ∧ found = []

theorem hasAnswers_iff {registry : Registry} {found : List Resolution} :
    registry.HasAnswers search shell words found ↔
      registry.resolutions search shell words = found := by
  rw [HasAnswers]
  cases hs : registry.supports shell with
  | true => simp [answers_iff, resolutions_of_supports hs]
  | false => simp [resolutions_of_not_supports hs, eq_comm]

theorem resolutions_precise (exhaustive : Bool) (registry : Registry) :
    registry.resolutions ⟨exhaustive, false⟩ shell words =
      (registry.resolutions ⟨exhaustive, true⟩ shell words).filter (·.entry.precise) := by
  cases hs : registry.supports shell with
  | false => rw [resolutions_of_not_supports hs, resolutions_of_not_supports hs, List.filter_nil]
  | true =>
    rw [resolutions_of_supports hs, resolutions_of_supports hs, List.filter_filterMap]
    refine List.filterMap_congr fun entry _ => ?_
    cases hb : entry.bind? words with
    | none => simp [resolution?, hb]
    | some b => cases hp : entry.precise <;> simp [resolution?, hb, hp, Option.filter]

theorem resolve_cons_of_nil {registry : Registry} (registries : List Registry)
    (h : registry.resolutions search shell words = []) :
    resolve search shell words (registry :: registries) =
      resolve search shell words registries := by
  simp [resolve, h]

theorem resolve_append (before after : List Registry) :
    resolve search shell words (before ++ after) =
      if resolve search shell words before ≠ [] ∧ search.exhaustive = false then
        resolve search shell words before
      else resolve search shell words before ++ resolve search shell words after := by
  induction before with
  | nil => simp [resolve]
  | cons registry before ih =>
    rw [List.cons_append, resolve, resolve, ih]
    by_cases hfound : registry.resolutions search shell words = []
    · simp [hfound]
    · by_cases hall : search.exhaustive = false
      · simp [hfound, hall]
      · simp [hall]

theorem resolve_eq_nil_iff {registries : List Registry} :
    resolve search shell words registries = [] ↔
      ∀ registry ∈ registries, registry.resolutions search shell words = [] := by
  induction registries with
  | nil => simp [resolve]
  | cons registry registries ih =>
    rw [resolve, List.forall_mem_cons, ← ih]
    by_cases hfound : registry.resolutions search shell words = []
    · simp [hfound]
    · split_ifs <;> simp [hfound]

theorem resolve_exhaustive (imprecise : Bool) (registries : List Registry) :
    resolve ⟨true, imprecise⟩ shell words registries =
      registries.flatMap (resolutions ⟨true, imprecise⟩ shell words) := by
  induction registries with
  | nil => rfl
  | cons registry registries ih => simp [resolve, ih]

/-- Any other search has the answers of the first registry that has one. -/
theorem resolve_first (imprecise : Bool) (registries : List Registry) :
    resolve ⟨false, imprecise⟩ shell words registries =
      ((registries.map (resolutions ⟨false, imprecise⟩ shell words)).find? (· ≠ [])).getD [] := by
  induction registries with
  | nil => rfl
  | cons registry registries ih =>
    rw [List.map_cons, resolve, ih]
    by_cases hfound : registry.resolutions ⟨false, imprecise⟩ shell words = []
    · rw [hfound, List.find?_cons_of_neg (by simp), if_neg (by simp), List.nil_append]
    · rw [List.find?_cons_of_pos (by simpa using hfound), if_pos ⟨hfound, rfl⟩, Option.getD_some]

theorem resolve_first_prefix (imprecise : Bool) (registries : List Registry) :
    resolve ⟨false, imprecise⟩ shell words registries <+:
      resolve ⟨true, imprecise⟩ shell words registries := by
  have hsame : ∀ registry : Registry, registry.resolutions ⟨false, imprecise⟩ shell words =
      registry.resolutions ⟨true, imprecise⟩ shell words := fun _ => rfl
  induction registries with
  | nil => exact List.prefix_rfl
  | cons registry registries ih =>
    rw [resolve, resolve, hsame]
    split_ifs with hstop
    · simp_all
    · exact List.prefix_append _ _
    · simp_all
    · exact (List.prefix_append_right_inj _).mpr ih

/-- Entries with others put in anywhere whose patterns cannot be read. -/
inductive PaddedEntries : List Entry → List Entry → Prop
  | nil : PaddedEntries [] []
  | keep (entry : Entry) {entries padded : List Entry} (more : PaddedEntries entries padded) :
    PaddedEntries (entry :: entries) (entry :: padded)
  | pad {entry : Entry} (malformed : entry.IsMalformed) {entries padded : List Entry}
    (more : PaddedEntries entries padded) : PaddedEntries entries (entry :: padded)

/-- Registries with such entries in any of them, and with others put in anywhere that are not for
the shell. -/
inductive Padded (shell : Text) : List Registry → List Registry → Prop
  | nil : Padded shell [] []
  | keep (path : Text) (shells : ShellSet) {entries padded : List Entry}
    (inside : PaddedEntries entries padded) {registries more : List Registry}
    (rest : Padded shell registries more) :
    Padded shell (⟨path, shells, entries⟩ :: registries) (⟨path, shells, padded⟩ :: more)
  | pad {registry : Registry} (foreign : registry.supports shell = false)
    {registries more : List Registry} (rest : Padded shell registries more) :
    Padded shell registries (registry :: more)

theorem PaddedEntries.filterMap_eq {entries padded : List Entry}
    (h : PaddedEntries entries padded) (search : Search) (path : Text) (words : List Text) :
    padded.filterMap (resolution? search path words) =
      entries.filterMap (resolution? search path words) := by
  induction h with
  | nil => rfl
  | keep entry _ ih => rw [List.filterMap_cons, List.filterMap_cons, ih]
  | pad malformed _ ih =>
    rw [List.filterMap_cons_none, ih]
    simp [resolution?, malformed.bind?_eq_none]

theorem resolve_padded {registries padded : List Registry} (h : Padded shell registries padded)
    (search : Search) (words : List Text) :
    resolve search shell words padded = resolve search shell words registries := by
  induction h with
  | nil => rfl
  | keep path shells inside _ ih =>
    rw [resolve, resolve, ih, resolutions_eq, resolutions_eq, inside.filterMap_eq]
  | pad foreign _ ih => rw [resolve_cons_of_nil _ (resolutions_of_not_supports foreign), ih]

/-- The answers of a registry are what its entries have to say, and a search finds those of all
registries, or of the first one that has any. So the first answers are an initial part of all
answers, a precise search for all of them leaves out just the imprecise ones, what cannot be read
or is for another shell is as good as absent, and behind an answer that is enough nothing counts. -/
theorem resolve_specification (shell : Text) (words : List Text) (registries : List Registry) :
    (∀ (search : Search) (registry : Registry) (found : List Resolution),
      registry.HasAnswers search shell words found ↔
        registry.resolutions search shell words = found) ∧
    (∀ imprecise, resolve ⟨true, imprecise⟩ shell words registries =
      registries.flatMap (resolutions ⟨true, imprecise⟩ shell words)) ∧
    (∀ imprecise, resolve ⟨false, imprecise⟩ shell words registries =
      ((registries.map (resolutions ⟨false, imprecise⟩ shell words)).find? (· ≠ [])).getD []) ∧
    (∀ imprecise, resolve ⟨false, imprecise⟩ shell words registries <+:
      resolve ⟨true, imprecise⟩ shell words registries) ∧
    resolve ⟨true, false⟩ shell words registries =
      (resolve ⟨true, true⟩ shell words registries).filter (·.entry.precise) ∧
    (∀ search padded, Padded shell registries padded →
      resolve search shell words padded = resolve search shell words registries) ∧
    ∀ imprecise later, resolve ⟨false, imprecise⟩ shell words registries ≠ [] →
      resolve ⟨false, imprecise⟩ shell words (registries ++ later) =
        resolve ⟨false, imprecise⟩ shell words registries := by
  refine ⟨fun _ _ _ => hasAnswers_iff, fun imprecise => resolve_exhaustive imprecise registries,
    fun imprecise => resolve_first imprecise registries,
    fun imprecise => resolve_first_prefix imprecise registries, ?_,
    fun search _ h => resolve_padded h search words, fun imprecise later h => ?_⟩
  · rw [resolve_exhaustive, resolve_exhaustive, List.filter_flatMap]
    exact congrArg registries.flatMap (funext (resolutions_precise true))
  · rw [resolve_append, if_pos ⟨h, rfl⟩]

def touching : Registry := ⟨"touch.toml".toList, .one ShellSet.every,
  [⟨"touch <FILES...>".toList, "rm % $FILES... %".toList, false⟩,
    ⟨"touch [?:-c --no-create] <FILES...>".toList, "true".toList, true⟩]⟩

def paddedTouching : List Registry :=
  [⟨"fish.toml".toList, .many ["fish".toList], touching.entries⟩,
    ⟨touching.path, touching.shells, [touching.entries[0],
      ⟨"touch <FILES".toList, "rm % $FILES %".toList, true⟩, touching.entries[1]]⟩]

theorem padded_touching : Padded "bash".toList [touching] paddedTouching := by
  have hopen : Pattern.read "touch <FILES".toList = .error ⟨.unclosed, "<FILES".toList⟩ := by cbv
  have hmalformed : Entry.IsMalformed ⟨"touch <FILES".toList, "rm % $FILES %".toList, true⟩ := by
    intro pattern h
    cases hopen.symm.trans h
  exact .pad (by decide) (.keep _ _ (.keep _ (.pad hmalformed (.keep _ .nil))) .nil)

theorem resolve_touching :
    resolve ⟨false, false⟩ "bash".toList ["touch".toList, "a".toList] [touching] =
      [⟨[("FILES".toList, .list ["a".toList]), ("NO_CREATE".toList, .flag false)],
        touching.entries[1], touching.path⟩] := by
  cbv

/-- The imprecise entry does not end the search, nor does what was put in, and the second time
the registry is not looked at. -/
theorem resolve_specification_touching :
    resolve ⟨false, false⟩ "bash".toList ["touch".toList, "a".toList]
        (paddedTouching ++ [touching]) =
      [⟨[("FILES".toList, .list ["a".toList]), ("NO_CREATE".toList, .flag false)],
        touching.entries[1], touching.path⟩] := by
  have hplain := resolve_specification "bash".toList ["touch".toList, "a".toList] [touching]
  have hpadded := resolve_specification "bash".toList ["touch".toList, "a".toList] paddedTouching
  obtain ⟨-, -, -, -, -, habsent, -⟩ := hplain
  obtain ⟨-, -, -, -, -, -, hstops⟩ := hpadded
  have hfound := (habsent ⟨false, false⟩ paddedTouching padded_touching).trans resolve_touching
  rw [hstops false [touching] (hfound ▸ List.cons_ne_nil _ _), hfound]

end Registry
end Countermand

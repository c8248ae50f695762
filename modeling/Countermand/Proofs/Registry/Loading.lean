import Countermand.Registry.Directory
import Countermand.Proofs.FileSystem.Writing
import Countermand.Proofs.Text.Ordering

/-! The registries that are found in directories. What a directory shows has one order, so that
the order in which its names are listed does not matter; a file that cannot be loaded takes nothing
from the registries in other files. -/
namespace Countermand.Registry
open Text FileSystem

variable {files other : FileSystem} {directory : Text}

def ListsOnce (files : FileSystem) : Prop :=
  ∀ directory listed, files.list? directory = some listed → listed.Nodup

/-- A directory shows the files that it lists, unless they are hidden. -/
structure Shows (files : FileSystem) (directory name : Text) : Prop where
  exists_directory : files.isDirectory directory = true
  listed : ∃ listed, files.list? directory = some listed ∧ name ∈ listed
  visible : name.head? ≠ some '.'
  file : files.isFile (Path.child directory name) = true

/-- What a directory shows, once and in the order of the bytes. -/
structure IsIndex (files : FileSystem) (directory : Text) (names : List Text) : Prop where
  increasing : names.Pairwise (Utf8.encode · < Utf8.encode ·)
  complete : ∀ name, name ∈ names ↔ Shows files directory name

theorem IsIndex.nodup {names : List Text} (h : IsIndex files directory names) : names.Nodup := by
  refine h.increasing.imp fun hlt heq => ?_
  rw [heq] at hlt
  exact List.lt_irrefl _ hlt

/-- Two indexes agree where the directories show the same. -/
theorem IsIndex.filter_eq {names names' : List Text} (h : IsIndex files directory names)
    (h' : IsIndex other directory names') {keep : Text → Bool}
    (hk : ∀ name, keep name = true → (Shows other directory name ↔ Shows files directory name)) :
    names'.filter keep = names.filter keep := by
  refine List.Perm.eq_of_pairwise (fun s t _ _ hst hts => absurd hst (List.lt_asymm hts))
    (h'.increasing.filter keep) (h.increasing.filter keep) ?_
  rw [List.perm_ext_iff_of_nodup (h'.nodup.filter keep) (h.nodup.filter keep)]
  intro name
  rw [List.mem_filter, List.mem_filter, h.complete, h'.complete, and_congr_left_iff]
  exact hk name

theorem pairwise_mergeSort_atMost {names : List Text} (h : names.Nodup) :
    (names.mergeSort atMost).Pairwise (Utf8.encode · < Utf8.encode ·) := by
  have hsorted : (names.mergeSort atMost).Pairwise (atMost · ·) :=
    @List.pairwise_mergeSort _ atMost (fun _ _ _ => atMost_trans) atMost_total names
  have honce : (names.mergeSort atMost).Nodup := (List.mergeSort_perm names atMost).nodup_iff.mpr h
  exact (hsorted.and honce).imp fun ⟨hle, hne⟩ => Utf8.encode_lt_encode (lt_of_atMost hle hne)

theorem mem_listed {name : Text} : name ∈ (files.list? directory).getD [] ↔
    ∃ listed, files.list? directory = some listed ∧ name ∈ listed := by
  cases files.list? directory <;> simp

theorem exists_isIndex (h : ListsOnce files) (directory : Text) :
    ∃ names, IsIndex files directory names ∧
      pathsIn files directory = names.map (Path.child directory) := by
  rw [pathsIn]
  split_ifs with hd
  · have hnodup : ((files.list? directory).getD []).Nodup := by
      cases hl : files.list? directory with
      | none => exact List.nodup_nil
      | some listed => exact h directory listed hl
    refine ⟨_, ⟨pairwise_mergeSort_atMost (hnodup.filter _), fun name => ?_⟩, rfl⟩
    simp only [List.mem_mergeSort, List.mem_filter, Bool.and_eq_true, Bool.not_eq_true',
      isHidden, beq_eq_false_iff_ne, mem_listed]
    exact ⟨fun ⟨hl, hv, hf⟩ => ⟨hd, hl, hv, hf⟩, fun ⟨_, hl, hv, hf⟩ => ⟨hl, hv, hf⟩⟩
  · refine ⟨[], ⟨List.Pairwise.nil, fun name => ?_⟩, rfl⟩
    simpa using fun hs : Shows files directory name => hd hs.exists_directory

theorem pathsIn_eq_nil (h : files.isDirectory directory = false ∨ files.list? directory = none) :
    pathsIn files directory = [] := by
  rcases h with hd | hl
  · simp [pathsIn, hd]
  · simp [pathsIn, hl]

theorem pathsIn_filter_eq (h : ListsOnce files) (h' : ListsOnce other) {keep : Text → Bool}
    (hk : ∀ name, keep (Path.child directory name) = true →
      (Shows other directory name ↔ Shows files directory name)) :
    (pathsIn other directory).filter keep = (pathsIn files directory).filter keep := by
  obtain ⟨names, hnames, hpaths⟩ := exists_isIndex h directory
  obtain ⟨names', hnames', hpaths'⟩ := exists_isIndex h' directory
  have hkept : names'.filter (keep ∘ Path.child directory) =
      names.filter (keep ∘ Path.child directory) := hnames.filter_eq hnames' hk
  rw [hpaths, hpaths', List.filter_map, List.filter_map, hkept]

theorem paths_filter_eq (h : ListsOnce files) (h' : ListsOnce other) {keep : Text → Bool}
    (hk : ∀ directory name, keep (Path.child directory name) = true →
      (Shows other directory name ↔ Shows files directory name)) (directories : List Text) :
    (paths other directories).filter keep = (paths files directories).filter keep := by
  rw [paths, paths, List.filter_flatMap, List.filter_flatMap]
  exact congrArg (directories.flatMap ·) (funext fun d => pathsIn_filter_eq h h' (hk d))

theorem path_of_load {path : Text} {r : Registry} (h : load files path = .ok r) :
    r.path = path := by
  rw [load] at h
  split at h
  · simp at h
  rw [read] at h
  split at h
  · simp at h
  split at h
  · rw [← Except.ok.inj h]
  · simp at h

theorem load_congr {path : Text} (h : other.read? path = files.read? path) :
    load other path = load files path := by
  rw [load, load, h]

theorem forall₂_loadAll (files : FileSystem) (directories : List Text) :
    List.Forall₂ (fun path r => load files path = .ok r)
      ((paths files directories).filter fun path => (load files path).isOk)
      (loadAll files directories) := by
  rw [loadAll]
  induction paths files directories with
  | nil => exact .nil
  | cons path paths ih =>
    rw [List.filter_cons, List.filterMap_cons]
    cases hload : load files path with
    | error e => exact ih
    | ok r => exact .cons hload ih

/-- Two states of the files which differ only in what stands at some paths. -/
structure DifferAt (changed : Text → Bool) (files other : FileSystem) : Prop where
  shows : ∀ directory name, changed (Path.child directory name) = false →
    (Shows other directory name ↔ Shows files directory name)
  content : ∀ path, changed path = false → other.read? path = files.read? path

/-- The same files, with the names in each directory in another order. -/
structure Relisted (files other : FileSystem) : Prop where
  kind : ∀ path, other.kind? path = files.kind? path
  content : ∀ path, other.read? path = files.read? path
  listing : ∀ directory, Option.Rel List.Perm (other.list? directory) (files.list? directory)

theorem Relisted.symm (h : Relisted files other) : Relisted other files where
  kind path := (h.kind path).symm
  content path := (h.content path).symm
  listing directory := by
    have hlisting := h.listing directory
    generalize other.list? directory = listed, files.list? directory = before at hlisting ⊢
    cases hlisting with
    | some hperm => exact .some hperm.symm
    | none => exact .none

theorem Relisted.exists_listed (h : Relisted files other) {listed : List Text}
    (hl : other.list? directory = some listed) :
    ∃ before, files.list? directory = some before ∧ listed.Perm before := by
  have hlisting := h.listing directory
  rw [hl] at hlisting
  generalize files.list? directory = before at hlisting ⊢
  cases hlisting with
  | some hperm => exact ⟨_, rfl, hperm⟩

theorem Relisted.listsOnce (h : Relisted files other) (ho : ListsOnce files) : ListsOnce other := by
  intro directory listed hl
  obtain ⟨before, hf, hperm⟩ := h.exists_listed hl
  exact hperm.nodup_iff.mpr (ho directory before hf)

theorem Relisted.shows (h : Relisted files other) {name : Text} (hs : Shows other directory name) :
    Shows files directory name := by
  obtain ⟨hd, ⟨listed, hl, hmem⟩, hv, hf⟩ := hs
  rw [FileSystem.isDirectory, h.kind] at hd
  rw [FileSystem.isFile, h.kind] at hf
  obtain ⟨before, hb, hperm⟩ := h.exists_listed hl
  exact ⟨hd, ⟨before, hb, hperm.mem_iff.mp hmem⟩, hv, hf⟩

theorem Relisted.differAt (h : Relisted files other) : DifferAt (fun _ => false) files other where
  shows _ _ _ := ⟨h.shows, h.symm.shows⟩
  content path _ := h.content path

section
variable {changed : Text → Bool}

theorem DifferAt.filter_paths_eq (h : DifferAt changed files other) (ho : ListsOnce files)
    (ho' : ListsOnce other) (directories : List Text) :
    (paths other directories).filter (!changed ·) =
      (paths files directories).filter (!changed ·) :=
  paths_filter_eq ho ho' (fun d name hk => h.shows d name (by simpa using hk)) directories

theorem filter_loadAll (files : FileSystem) (directories : List Text) :
    (loadAll files directories).filter (fun r => !changed r.path) =
      ((paths files directories).filter (!changed ·)).filterMap fun path =>
        (load files path).toOption := by
  rw [loadAll]
  induction paths files directories with
  | nil => rfl
  | cons path paths ih =>
    rw [List.filterMap_cons, List.filter_cons]
    cases hload : load files path with
    | error e =>
      split_ifs
      · rw [List.filterMap_cons, hload]
        exact ih
      · exact ih
    | ok r =>
      change List.filter _ (r :: _) = _
      rw [List.filter_cons, path_of_load hload]
      split_ifs
      · rw [List.filterMap_cons, hload, ih]
        rfl
      · exact ih

/-- The registries from the other files are the same, and in the same order. -/
theorem DifferAt.filter_loadAll_eq (h : DifferAt changed files other) (ho : ListsOnce files)
    (ho' : ListsOnce other) (directories : List Text) :
    (loadAll other directories).filter (fun r => !changed r.path) =
      (loadAll files directories).filter (fun r => !changed r.path) := by
  rw [filter_loadAll, filter_loadAll, h.filter_paths_eq ho ho']
  refine List.filterMap_congr fun path hpath => ?_
  rw [load_congr (h.content path (by simpa using (List.mem_filter.mp hpath).2))]

theorem filter_loadAll_eq_self
    (h : ∀ path r, changed path = true → load files path ≠ .ok r) (directories : List Text) :
    (loadAll files directories).filter (fun r => !changed r.path) = loadAll files directories := by
  rw [List.filter_eq_self]
  intro r hr
  obtain ⟨path, -, hload⟩ := List.mem_filterMap.mp hr
  have hok : load files path = .ok r := by
    cases hl : load files path <;> simp_all [Except.toOption]
  rw [path_of_load hok, Bool.not_eq_true', ← Bool.not_eq_true]
  exact fun hc => h path r hc hok

end

section
variable {t : Tree} {w place : List Text} {content : Bytes}

theorem listsOnce_fileSystem (t : Tree) (w : List Text) : ListsOnce (t.fileSystem w) := by
  intro directory listed hl
  obtain ⟨q, -, -, rfl⟩ := Tree.list?_fileSystem.mp hl
  exact Tree.nodup_eraseDups _

theorem shows_fileSystem {name : Text} :
    Shows (t.fileSystem w) directory name ↔
      ∃ q, (t.locate w directory = some q ∧ t.node? q = some .directory) ∧ name ∈ t.names q ∧
        name.head? ≠ some '.' ∧
        (t.fileSystem w).isFile (Path.child directory name) = true := by
  constructor
  · rintro ⟨-, ⟨listed, hl, hmem⟩, hv, hf⟩
    obtain ⟨q, hq, hd, rfl⟩ := Tree.list?_fileSystem.mp hl
    exact ⟨q, ⟨hq, hd⟩, List.mem_eraseDups.mp hmem, hv, hf⟩
  · rintro ⟨q, ⟨hq, hd⟩, hmem, hv, hf⟩
    exact ⟨Tree.isDirectory_fileSystem.mpr ⟨q, hq, hd⟩,
      ⟨_, Tree.list?_fileSystem.mpr ⟨q, hq, hd, rfl⟩, List.mem_eraseDups.mpr hmem⟩, hv, hf⟩

theorem shows_write (h : t.Fits place) {name : Text}
    (hp : (t.write place content).locate w (Path.child directory name) ≠ some place) :
    Shows ((t.write place content).fileSystem w) directory name ↔
      Shows (t.fileSystem w) directory name := by
  rw [shows_fileSystem, shows_fileSystem]
  refine exists_congr fun q => ?_
  rw [Tree.locate_write_directory h, and_congr_right_iff]
  intro hq
  rw [isFile, isFile, Tree.kind?_write h hp]
  by_cases hplace : q ++ [name] = place
  · -- the file is in its directory, so that the path that misses it is too long
    obtain ⟨hlocate, hd⟩ := (Tree.locate_write_directory h content).mpr hq
    obtain ⟨front, last, heq, hlast⟩ := h.named
    obtain ⟨-, hname⟩ := List.append_inj' (hplace.trans heq) rfl
    obtain rfl := List.singleton_inj.mp hname
    have hfile : (t.write place content).node? (q ++ [name]) = some (.file content) := by
      rw [hplace, Tree.node?_write_self h.below]
    rcases Tree.locate_child hlast.2.2.2 hlocate with hnone | hchild
    · have hkind : (t.fileSystem w).kind? (Path.child directory name) = none := by
        rw [← Tree.kind?_write h hp]
        simp [Tree.fileSystem, Tree.find?, hnone]
      simp [hkind]
    · rw [Tree.follow_name hlast hd hfile, hplace] at hchild
      exact absurd hchild hp
  · rw [Tree.mem_names_write hplace]

/-- The places at which a tree differs after a file was written are the paths that lead to it. -/
theorem differAt_write (h : t.Fits place) (w : List Text) (content : Bytes) :
    DifferAt (fun path => (t.write place content).locate w path = some place) (t.fileSystem w)
      ((t.write place content).fileSystem w) where
  shows _ _ hp := shows_write h (of_decide_eq_false hp)
  content _ hp := Tree.read?_write h (of_decide_eq_false hp)

end

/-- The registries come from what the directories show, one directory after the other and each in
the order of its names. They are those files that can be loaded, in whatever order the names are
listed, and what happens to one file takes nothing from the registries in the others. -/
theorem loadAll_canonical (h : ListsOnce files) (directories : List Text) :
    (∃ names : Text → List Text, (∀ directory, IsIndex files directory (names directory)) ∧
      paths files directories =
        directories.flatMap fun directory => (names directory).map (Path.child directory)) ∧
      (∀ directory, files.isDirectory directory = false ∨ files.list? directory = none →
        pathsIn files directory = []) ∧
      List.Forall₂ (fun path r => load files path = .ok r)
        ((paths files directories).filter fun path => (load files path).isOk)
        (loadAll files directories) ∧
      (∀ other, Relisted files other → paths other directories = paths files directories ∧
        loadAll other directories = loadAll files directories) ∧
      ∀ other changed, ListsOnce other → DifferAt changed files other →
        (loadAll other directories).filter (fun r => !changed r.path) =
            (loadAll files directories).filter (fun r => !changed r.path) ∧
          ((∀ path r, changed path = true → load files path ≠ .ok r ∧ load other path ≠ .ok r) →
            loadAll other directories = loadAll files directories) := by
  refine ⟨?_, fun directory => pathsIn_eq_nil, forall₂_loadAll files directories,
    fun other hr => ?_,
    fun other changed ho hc => ⟨hc.filter_loadAll_eq h ho directories, fun hnone => ?_⟩⟩
  · choose names hnames hpaths using exists_isIndex h
    exact ⟨names, hnames, congrArg (directories.flatMap ·) (funext hpaths)⟩
  · have ho := hr.listsOnce h
    have hpaths := hr.differAt.filter_paths_eq h ho directories
    have hloaded := hr.differAt.filter_loadAll_eq h ho directories
    simp only [Bool.not_false, List.filter_true] at hpaths hloaded
    exact ⟨hpaths, hloaded⟩
  · rw [← filter_loadAll_eq_self (fun path r hp => (hnone path r hp).1),
      ← filter_loadAll_eq_self (fun path r hp => (hnone path r hp).2)]
    exact hc.filter_loadAll_eq h ho directories

def archive : Tree :=
  [(["reg".toList], .directory),
    (["reg".toList, "b.toml".toList], .file (bytes "[[entry]]\ncmd = \"a\"\nundo = \"b\"\n")),
    (["reg".toList, ".c.toml".toList], .file (bytes "")),
    (["reg".toList, "nested".toList], .directory),
    (["reg".toList, "a.toml".toList], .file (bytes "supported-shells = \"fish\""))]
where
  bytes (content : String) : Bytes := content.toList.map fun c => c.toNat.toUInt8

def spoiledPlace : List Text := ["reg".toList, "aa.toml".toList]

def spoiled : Tree := archive.write spoiledPlace (archive.bytes "broken")

theorem loadAll_canonical_archive :
    let files := archive.fileSystem []
    let backwards := { files with list? := fun d => (files.list? d).map List.reverse }
    ListsOnce files ∧ Relisted files backwards ∧
      DifferAt (fun path => spoiled.locate [] path = some spoiledPlace) files
        (spoiled.fileSystem []) ∧
      (loadAll files ["reg".toList, "none".toList]).map Registry.path =
        ["reg/a.toml".toList, "reg/b.toml".toList] ∧
      loadAll backwards ["reg".toList, "none".toList] =
        loadAll files ["reg".toList, "none".toList] ∧
      loadAll (spoiled.fileSystem []) ["reg".toList, "none".toList] =
        loadAll files ["reg".toList, "none".toList] := by
  intro files backwards
  have hfits : archive.Fits spoiledPlace :=
    ⟨⟨["reg".toList], "aa.toml".toList, rfl, by decide, by decide, by decide, by decide⟩,
      .inl (by decide)⟩
  have hdiffer := differAt_write hfits [] (archive.bytes "broken")
  have hrelisted : Relisted files backwards := by
    refine ⟨fun _ => rfl, fun _ => rfl, fun d => ?_⟩
    change Option.Rel List.Perm ((files.list? d).map List.reverse) (files.list? d)
    cases files.list? d with
    | none => exact .none
    | some listed => exact .some listed.reverse_perm
  have hnone : ∀ path r, decide (spoiled.locate [] path = some spoiledPlace) = true →
      load files path ≠ .ok r ∧ load (spoiled.fileSystem []) path ≠ .ok r := by
    intro path r hpath
    have hp := of_decide_eq_true hpath
    have hbefore : files.read? path = none := Tree.read?_unwritten hfits (by decide) hp
    have hafter : (spoiled.fileSystem []).read? path = some (archive.bytes "broken") :=
      Tree.read?_write_self hfits hp
    have hdecode : Text.Utf8.decode? (archive.bytes "broken") = some "broken".toList := by cbv
    have hmalformed : read path "broken".toList = .error (.malformed path) := by cbv
    have hload : load (spoiled.fileSystem []) path = .error (.malformed path) := by
      rw [load, hafter, Option.bind_some, hdecode]
      exact hmalformed
    exact ⟨by simp [load, hbefore], by simp [hload]⟩
  obtain ⟨-, -, -, hlisting, hchange⟩ :=
    loadAll_canonical (listsOnce_fileSystem archive []) ["reg".toList, "none".toList]
  exact ⟨listsOnce_fileSystem archive [], hrelisted, hdiffer, by cbv,
    (hlisting backwards hrelisted).2,
    (hchange _ _ (listsOnce_fileSystem spoiled []) hdiffer).2 hnone⟩

end Countermand.Registry

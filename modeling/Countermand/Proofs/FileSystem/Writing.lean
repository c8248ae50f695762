import Countermand.FileSystem.Tree
import Countermand.Proofs.Path

/-! A file that is written into a tree. Only the paths that lead to it lead elsewhere than before,
and only its own directory lists one name more. -/
namespace Countermand.FileSystem.Tree
variable {t : Tree} {start place names : List Text} {content : Bytes}

theorem follow_append (t : Tree) (start names more : List Text) :
    t.follow start (names ++ more) = (t.follow start names).bind fun p => t.follow p more := by
  fun_induction follow t start names <;> simp_all [follow]

theorem follow_eq_none (hd : t.node? start ≠ some .directory) (hn : names ≠ []) :
    t.follow start names = none := by
  obtain ⟨name, names, rfl⟩ := List.exists_cons_of_ne_nil hn
  rw [follow, if_pos hd]

theorem eq_of_follow_blank {q : List Text} (h : t.follow start [[]] = some q) : start = q := by
  rw [follow] at h
  split_ifs at h with _ hblank hup
  · exact Option.some.inj h
  · exact absurd hup (by simp)
  · exact absurd (.inl rfl) hblank

/-- A file may be written here: there is one, or nothing. -/
structure Fits (t : Tree) (place : List Text) : Prop where
  named : ∃ directory name, place = directory ++ [name] ∧ Path.IsName name
  vacant : t.node? place = none ∨ ∃ content, t.node? place = some (.file content)

theorem Fits.below (h : t.Fits place) : place ≠ [] := by
  obtain ⟨directory, name, rfl, -⟩ := h.named
  exact List.concat_ne_nil name directory

theorem Fits.not_directory (h : t.Fits place) : t.node? place ≠ some .directory := by
  rcases h.vacant with hnone | ⟨content, hfile⟩
  · simp [hnone]
  · simp [hfile]

def write (t : Tree) (place : List Text) (content : Bytes) : Tree := (place, .file content) :: t

theorem node?_write_self (h : place ≠ []) (content : Bytes) :
    (t.write place content).node? place = some (.file content) := by
  rw [write, node?, if_neg h, List.lookup_cons_self]

theorem node?_write_of_ne (h : start ≠ place) (content : Bytes) :
    (t.write place content).node? start = t.node? start := by
  rw [write, node?, node?, List.lookup_cons, beq_false_of_ne h]

theorem follow_write_self (h : t.Fits place) (content : Bytes) (names : List Text) :
    (t.write place content).follow place names = t.follow place names := by
  cases names with
  | nil => rfl
  | cons name names =>
    have hd : (t.write place content).node? place ≠ some .directory := by
      simp [node?_write_self h.below]
    rw [follow_eq_none hd (by simp), follow_eq_none h.not_directory (by simp)]

/-- Names lead where they led before, but to the written file they may not have led. -/
theorem follow_write (h : t.Fits place) (content : Bytes) (start names : List Text) :
    (t.write place content).follow start names = t.follow start names ∨
      (t.write place content).follow start names = some place ∧ t.follow start names = none := by
  induction names generalizing start with
  | nil => exact .inl rfl
  | cons name names ih =>
    by_cases hstart : start = place
    · exact .inl (hstart ▸ follow_write_self h content (name :: names))
    rw [follow, follow, node?_write_of_ne hstart]
    split_ifs
    · exact .inl rfl
    · exact ih start
    · exact ih start.dropLast
    by_cases hnext : start ++ [name] = place
    · rw [hnext, node?_write_self h.below]
      change (t.write place content).follow place names = _ ∨ _
      rw [follow_write_self h]
      rcases h.vacant with hnone | ⟨before, hfile⟩
      · rw [hnone]
        cases names with
        | nil => exact .inr ⟨rfl, rfl⟩
        | cons => exact .inl (follow_eq_none h.not_directory (by simp))
      · rw [hfile]
        exact .inl rfl
    · rw [node?_write_of_ne hnext]
      cases t.node? (start ++ [name]) with
      | none => exact .inl rfl
      | some node =>
        cases node with
        | link target => exact ih target
        | _ => exact ih (start ++ [name])

theorem locate_write (h : t.Fits place) (content : Bytes) (w : List Text) (p : Text) :
    (t.write place content).locate w p = t.locate w p ∨
      (t.write place content).locate w p = some place ∧ t.locate w p = none := by
  rw [locate, locate]
  split_ifs
  · exact .inl rfl
  · exact follow_write h content _ _
  · exact follow_write h content _ _

theorem find?_write (h : t.Fits place) {w : List Text} {p : Text}
    (hp : (t.write place content).locate w p ≠ some place) :
    (t.write place content).find? w p = t.find? w p := by
  have hsame := (locate_write h content w p).resolve_right fun h => hp h.1
  rw [find?, find?, hsame]
  cases hq : t.locate w p with
  | none => rfl
  | some q =>
    refine node?_write_of_ne ?_ content
    rintro rfl
    exact hp (hsame.trans hq)

theorem locate_write_directory (h : t.Fits place) (content : Bytes) {w q : List Text} {p : Text} :
    (t.write place content).locate w p = some q ∧
        (t.write place content).node? q = some .directory ↔
      t.locate w p = some q ∧ t.node? q = some .directory := by
  by_cases hq : q = place
  · subst hq
    simp [node?_write_self h.below, h.not_directory]
  · rw [node?_write_of_ne hq, and_congr_left_iff]
    intro
    rcases locate_write h content w p with hsame | ⟨hplace, hnone⟩
    · rw [hsame]
    · simp [hplace, hnone, Ne.symm hq]

theorem mem_names {name : Text} : name ∈ t.names place ↔ ∃ node, (place ++ [name], node) ∈ t := by
  rw [names, List.mem_filterMap]
  constructor
  · rintro ⟨⟨other, node⟩, hmem, hname⟩
    cases hlast : other.getLast? with
    | none => simp [hlast] at hname
    | some last =>
      obtain ⟨front, rfl⟩ := List.getLast?_eq_some_iff.mp hlast
      simp only [hlast, List.dropLast_concat] at hname
      split_ifs at hname with hfront
      obtain rfl := Option.some.inj hname
      exact ⟨node, hfront ▸ hmem⟩
  · rintro ⟨node, hmem⟩
    exact ⟨(place ++ [name], node), hmem, by simp⟩

theorem mem_names_write {name : Text} (hname : start ++ [name] ≠ place) :
    name ∈ (t.write place content).names start ↔ name ∈ t.names start := by
  simp [mem_names, write, hname]

/-- The child of a directory is the step behind it, unless its path is too long. -/
theorem locate_child {w q : List Text} {directory name : Text} (hname : '/' ∉ name)
    (hlocate : t.locate w directory = some q) :
    t.locate w (Path.child directory name) = none ∨
      t.locate w (Path.child directory name) = t.follow q [name] := by
  rw [locate] at hlocate
  split at hlocate
  · simp at hlocate
  rename_i hread
  obtain ⟨hne, -⟩ := not_or.mp hread
  obtain ⟨front, hfront, hchild⟩ := Path.splitOn_child hne hname
  -- the step at the end that a final slash makes leads nowhere
  have hstart : t.follow (if Path.isAbsolute directory then [] else w) front = some q := by
    rcases hfront with hfront | hfront
    · rwa [hfront] at hlocate
    · rw [hfront, follow_append] at hlocate
      obtain ⟨p, hp, hblank⟩ := Option.bind_eq_some_iff.mp hlocate
      rw [hp, eq_of_follow_blank hblank]
  rw [locate]
  split
  · exact .inl rfl
  · right
    rw [Path.isAbsolute_child hne hname, hchild, follow_append, hstart]
    rfl

theorem follow_name {name : Text} (hname : Path.IsName name)
    (hd : t.node? start = some .directory) (hf : t.node? (start ++ [name]) = some (.file content)) :
    t.follow start [name] = some (start ++ [name]) := by
  obtain ⟨hne, hdot, hup, -⟩ := hname
  simp [follow, hd, hf, hne, hdot, hup]

section
variable {w q listed : List Text} {p : Text}

theorem isDirectory_fileSystem :
    (t.fileSystem w).isDirectory p = true ↔
      ∃ q, t.locate w p = some q ∧ t.node? q = some .directory := by
  simp only [isDirectory, fileSystem, find?, beq_iff_eq, Option.map_eq_some_iff,
    Option.bind_eq_some_iff]
  constructor
  · rintro ⟨node, ⟨q, hq, hnode⟩, hkind⟩
    cases node <;> simp_all
  · rintro ⟨q, hq, hd⟩
    exact ⟨.directory, ⟨q, hq, hd⟩, rfl⟩

theorem list?_fileSystem :
    (t.fileSystem w).list? p = some listed ↔
      ∃ q, t.locate w p = some q ∧ t.node? q = some .directory ∧
        (t.names q).eraseDups = listed := by
  simp only [fileSystem, Option.bind_eq_some_iff]
  refine exists_congr fun q => and_congr_right fun _ => ?_
  split_ifs with hd <;> simp [hd]

theorem nodup_eraseDups (names : List Text) : names.eraseDups.Nodup := by
  induction hn : names.length using Nat.strong_induction_on generalizing names with
  | _ n ih =>
    cases names with
    | nil => exact List.nodup_nil
    | cons name names =>
      have hlt : (names.filter (!· == name)).length < n := by
        have hle := List.length_filter_le (!· == name) names
        rw [← hn, List.length_cons]
        omega
      rw [List.eraseDups_cons, List.nodup_cons]
      exact ⟨by simp, ih _ hlt _ rfl⟩

theorem kind?_write (h : t.Fits place) (hp : (t.write place content).locate w p ≠ some place) :
    ((t.write place content).fileSystem w).kind? p = (t.fileSystem w).kind? p := by
  simp only [fileSystem, find?_write h hp]

theorem read?_write (h : t.Fits place) (hp : (t.write place content).locate w p ≠ some place) :
    ((t.write place content).fileSystem w).read? p = (t.fileSystem w).read? p := by
  simp only [fileSystem, find?_write h hp]

theorem read?_write_self (h : t.Fits place)
    (hp : (t.write place content).locate w p = some place) :
    ((t.write place content).fileSystem w).read? p = some content := by
  simp [fileSystem, find?, hp, node?_write_self h.below]

theorem read?_unwritten (h : t.Fits place) (hv : t.node? place = none)
    (hp : (t.write place content).locate w p = some place) :
    (t.fileSystem w).read? p = none := by
  rcases locate_write h content w p with hsame | ⟨-, hnone⟩
  · simp [fileSystem, find?, ← hsame, hp, hv]
  · simp [fileSystem, find?, hnone]

end

end Countermand.FileSystem.Tree

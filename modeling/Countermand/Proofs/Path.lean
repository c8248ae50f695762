import Countermand.Path
import Countermand.Proofs.Text.Splitting

/-! Paths as walks from the root. For where a path leads only its steps count, and whether it starts
at the root itself. A place has one spelling without needless steps, which leads there again, and a
path may be cut at its last slash without going astray. -/
namespace Countermand.Path

/-- Where some steps lead from the root: the names on the way, the root itself having none. -/
inductive LeadsTo : List Text → List Text → Prop
  | root : LeadsTo [] []
  | up {path place : List Text} : LeadsTo path place → LeadsTo (path ++ [['.', '.']]) place.dropLast
  | down {path place : List Text} {name : Text} : LeadsTo path place → name ≠ ['.', '.'] →
      LeadsTo (path ++ [name]) (place ++ [name])

theorem leadsTo_iff {path place : List Text} :
    LeadsTo path place ↔ place = (path.foldl walk []).reverse := by
  constructor
  · intro h
    induction h with
    | root => rfl
    | up _ ih =>
      rw [ih, List.foldl_append, List.foldl_cons, List.foldl_nil, walk, if_pos rfl,
        List.dropLast_reverse]
    | down _ hname ih =>
      rw [ih, List.foldl_append, List.foldl_cons, List.foldl_nil, walk, if_neg hname,
        List.reverse_cons]
  · rintro rfl
    induction path using List.reverseRecOn with
    | nil => exact .root
    | append_singleton path name ih =>
      rw [List.foldl_append, List.foldl_cons, List.foldl_nil, walk]
      split_ifs with hname
      · rw [hname, ← List.dropLast_reverse]
        exact ih.up
      · rw [List.reverse_cons]
        exact ih.down hname

def IsName (name : Text) : Prop :=
  name ≠ [] ∧ name ≠ ['.'] ∧ name ≠ ['.', '.'] ∧ '/' ∉ name

theorem mem_steps {p s : Text} (h : s ∈ steps p) : s ≠ [] ∧ s ≠ ['.'] ∧ '/' ∉ s := by
  obtain ⟨hs, hkept⟩ := List.mem_filter.mp h
  obtain ⟨hne, hdot⟩ := of_decide_eq_true hkept
  refine ⟨hne, hdot, fun hslash => ?_⟩
  simpa using Text.not_separates_of_mem_splitWhere hs '/' hslash

theorem LeadsTo.isName {path place : List Text} (h : LeadsTo path place)
    (hp : ∀ s ∈ path, s ≠ [] ∧ s ≠ ['.'] ∧ '/' ∉ s) : ∀ name ∈ place, IsName name := by
  induction h with
  | root => simp
  | up _ ih =>
    intro name hname
    exact ih (fun s hs => hp s (List.mem_append_left _ hs)) name (List.mem_of_mem_dropLast hname)
  | @down path place next _ hnext ih =>
    intro name hname
    rcases List.mem_append.mp hname with hname | hname
    · exact ih (fun s hs => hp s (List.mem_append_left _ hs)) name hname
    · obtain rfl := List.mem_singleton.mp hname
      obtain ⟨hne, hdot, hslash⟩ := hp name (by simp)
      exact ⟨hne, hdot, hnext, hslash⟩

theorem leadsTo_self {names : List Text} (h : ∀ name ∈ names, IsName name) :
    LeadsTo names names := by
  induction names using List.reverseRecOn with
  | nil => exact .root
  | append_singleton names name ih =>
    have hname := h name (by simp)
    exact (ih fun n hn => h n (List.mem_append_left _ hn)).down hname.2.2.1

@[simp] theorem steps_nil : steps [] = [] := by decide

theorem steps_append (p q : Text) : steps (p ++ '/' :: q) = steps p ++ steps q := by
  rw [steps, Text.splitOn_append, List.filter_append, ← steps, ← steps]

theorem steps_cons (p : Text) : steps ('/' :: p) = steps p := by
  simpa using steps_append [] p

theorem steps_slashes {slashes : Text} (h : ∀ c ∈ slashes, c = '/') (p : Text) :
    steps (slashes ++ p) = steps p := by
  induction slashes with
  | nil => rfl
  | cons c slashes ih =>
    rw [h c (by simp), List.cons_append, steps_cons, ih fun d hd => h d (List.mem_cons_of_mem c hd)]

theorem steps_child (directory p : Text) :
    steps (child directory p) =
      if isAbsolute p then steps p else steps directory ++ steps p := by
  rw [child]
  split_ifs with habsolute hd
  · rfl
  · rcases hd with rfl | hd
    · rfl
    · obtain ⟨front, rfl⟩ := List.getLast?_eq_some_iff.mp hd
      rw [List.append_assoc, List.singleton_append, steps_append, steps_append, steps_nil,
        List.append_nil]
  · exact steps_append directory p

section
variable {directory name : Text}

theorem child_name (hd : directory ≠ []) (hname : '/' ∉ name) :
    child directory name =
      if directory.getLast? = some '/' then directory ++ name else directory ++ '/' :: name := by
  have hrelative : isAbsolute name = false := by
    rw [isAbsolute, beq_eq_false_iff_ne]
    exact fun h => hname (List.mem_of_head? h)
  simp [child, hrelative, hd]

theorem isAbsolute_child (hd : directory ≠ []) (hname : '/' ∉ name) :
    isAbsolute (child directory name) = isAbsolute directory := by
  rw [child_name hd hname]
  obtain ⟨c, rest, rfl⟩ := List.exists_cons_of_ne_nil hd
  split_ifs <;> rfl

/-- The steps to a child are those to its directory and its name; a slash at the end of the
directory makes no further step. -/
theorem splitOn_child (hd : directory ≠ []) (hname : '/' ∉ name) :
    ∃ front, (Text.splitOn '/' directory = front ∨ Text.splitOn '/' directory = front ++ [[]]) ∧
      Text.splitOn '/' (child directory name) = front ++ [name] := by
  have hone : Text.splitOn '/' name = [name] := by
    refine Text.splitWhere_run fun c hc => ?_
    rw [beq_eq_false_iff_ne]
    rintro rfl
    exact hname hc
  rw [child_name hd hname]
  split_ifs with hlast
  · obtain ⟨front, rfl⟩ := List.getLast?_eq_some_iff.mp hlast
    refine ⟨Text.splitOn '/' front, .inr (Text.splitOn_append '/' front []), ?_⟩
    rw [List.append_assoc, List.singleton_append, Text.splitOn_append, hone]
  · exact ⟨_, .inl rfl, by rw [Text.splitOn_append, hone]⟩

end

theorem absolute_congr {p q : Text} (w : Text) (h : isAbsolute p = isAbsolute q)
    (hs : steps p = steps q) : absolute w p = absolute w q := by
  rw [absolute, absolute, steps_child, steps_child, h, hs]

theorem absolute_eq {w p : Text} {path place : List Text} (hs : steps (child w p) = path)
    (h : LeadsTo path place) : absolute w p = '/' :: ['/'].intercalate place := by
  rw [absolute, ofPlace, hs, ← leadsTo_iff.mp h]

section
variable {names : List Text}

theorem splitOn_ofNames (hne : names ≠ []) (h : ∀ name ∈ names, IsName name) :
    Text.splitOn '/' ('/' :: ['/'].intercalate names) = [] :: names := by
  have hsplit : Text.splitOn '/' (['/'].intercalate names) = names :=
    Text.splitOn_intercalate hne fun name hname => (h name hname).2.2.2
  rw [Text.splitOn, Text.splitWhere, if_pos (beq_self_eq_true '/'), ← Text.splitOn, hsplit]

theorem steps_ofNames (h : ∀ name ∈ names, IsName name) :
    steps ('/' :: ['/'].intercalate names) = names := by
  by_cases hne : names = []
  · rw [hne]
    decide
  · rw [steps, splitOn_ofNames hne h, List.filter_cons_of_neg (by simp), List.filter_eq_self]
    intro name hname
    exact decide_eq_true ⟨(h name hname).1, (h name hname).2.1⟩

theorem absolute_ofNames (w : Text) (h : ∀ name ∈ names, IsName name) :
    absolute w ('/' :: ['/'].intercalate names) = '/' :: ['/'].intercalate names := by
  refine absolute_eq ?_ (leadsTo_self h)
  rw [steps_child, if_pos (by rfl), steps_ofNames h]

theorem eq_nil_of_getLast? (h : ∀ name ∈ names, IsName name)
    (hlast : ('/' :: ['/'].intercalate names).getLast? = some '/') : names = [] := by
  by_contra hne
  obtain ⟨front, hfront⟩ := List.getLast?_eq_some_iff.mp hlast
  have hsplit : Text.splitOn '/' front ++ [[]] = [] :: names := by
    rw [← splitOn_ofNames hne h, hfront, Text.splitOn_append]
    rfl
  have hend : names.getLast? = some [] := by
    rw [← List.getLast?_cons_of_ne_nil hne, ← hsplit, List.getLast?_concat]
  exact (h [] (List.mem_of_getLast? hend)).1 rfl

end

/-- A path with a slash is cut behind the last one of them; the slashes there are the directory only
if nothing stands in front of them. -/
theorem exists_dirname {p : Text} (h : '/' ∈ p) :
    ∃ front slashes, slashes ≠ [] ∧ (∀ c ∈ slashes, c = '/') ∧
      p = front ++ (slashes ++ basename p) ∧
      dirname p = if front = [] then slashes else front := by
  obtain ⟨rest, hrest⟩ : ∃ rest, p.reverse.dropWhile (· ≠ '/') = '/' :: rest := by
    cases hd : p.reverse.dropWhile (· ≠ '/') with
    | nil => exact absurd (List.dropWhile_eq_nil_iff.mp hd '/' (by simpa using h)) (by simp)
    | cons c rest =>
      have hne : p.reverse.dropWhile (· ≠ '/') ≠ [] := by
        rw [hd]
        exact List.cons_ne_nil c rest
      have hc := List.head_dropWhile_not (· ≠ '/') hne
      simp only [hd, List.head_cons] at hc
      exact ⟨rest, by simpa using hc⟩
  have hp : p = ('/' :: rest).reverse ++ basename p := by
    rw [← hrest, basename, ← List.reverse_append, List.takeWhile_append_dropWhile,
      List.reverse_reverse]
  have hhead : ('/' :: rest).reverse = (rest.dropWhile (· = '/')).reverse ++
      ('/' :: rest.takeWhile (· = '/')).reverse := by
    rw [← List.reverse_append, List.cons_append, List.takeWhile_append_dropWhile]
  refine ⟨(rest.dropWhile (· = '/')).reverse, ('/' :: rest.takeWhile (· = '/')).reverse,
    by simp, fun c hc => ?_, ?_, ?_⟩
  · rcases List.mem_cons.mp (List.mem_reverse.mp hc) with rfl | hc
    · rfl
    · simpa using List.mem_takeWhile_imp hc
  · rw [← List.append_assoc, ← hhead]
    exact hp
  · rw [dirname, hrest, List.reverse_reverse, List.dropWhile_cons_of_pos (by simp)]
    split_ifs with hfront
    · rw [hhead, hfront, List.nil_append]
    · rfl

/-- What a path is cut into leads where the path leads. -/
theorem absolute_dirname_basename (w : Text) {p : Text} (h : '/' ∈ p) :
    absolute w (dirname p ++ '/' :: basename p) = absolute w p := by
  obtain ⟨front, slashes, hne, hslashes, hp, hdirname⟩ := exists_dirname h
  obtain ⟨c, more, rfl⟩ := List.exists_cons_of_ne_nil hne
  obtain rfl : c = '/' := hslashes c (by simp)
  have hsteps : steps p = steps front ++ steps (basename p) := by
    have hmore : ∀ c ∈ more, c = '/' := fun c hc => hslashes c (List.mem_cons_of_mem '/' hc)
    calc steps p = steps (front ++ '/' :: (more ++ basename p)) := congrArg steps hp
      _ = steps front ++ steps (basename p) := by rw [steps_append, steps_slashes hmore]
  rw [hdirname]
  split_ifs with hfront
  · subst hfront
    refine absolute_congr w ?_ ?_
    · rw [hp]
      rfl
    · rw [steps_slashes hslashes, steps_cons, hsteps, steps_nil, List.nil_append]
  · refine absolute_congr w ?_ ?_
    · obtain ⟨d, front, rfl⟩ := List.exists_cons_of_ne_nil hfront
      rw [hp]
      rfl
    · rw [steps_append, hsteps]

theorem not_mem_basename (p : Text) : '/' ∉ basename p := by
  intro h
  have hslash := List.mem_takeWhile_imp (List.mem_reverse.mp h)
  simp at hslash

/-- The absolute path is the way of the names that its steps lead along, spelled without needless
steps; to cut a path at its last slash and to put it together again leads to the same place. -/
theorem absolute_lexical (w p : Text) :
    (∃ place, LeadsTo (steps (if isAbsolute p then p else w ++ '/' :: p)) place) ∧
      (∀ place, LeadsTo (steps (if isAbsolute p then p else w ++ '/' :: p)) place →
        absolute w p = '/' :: ['/'].intercalate place) ∧
      isAbsolute (absolute w p) = true ∧
      (absolute w p = ['/'] ∨ (absolute w p).getLast? ≠ some '/' ∧
        ∃ names, Text.splitOn '/' (absolute w p) = [] :: names ∧
          ∀ name ∈ names, name ≠ [] ∧ name ≠ ['.'] ∧ name ≠ ['.', '.']) ∧
      absolute w (absolute w p) = absolute w p ∧
      ('/' ∈ p → '/' ∉ basename p ∧ basename p <:+ p ∧
        absolute w (dirname p ++ '/' :: basename p) = absolute w p) := by
  obtain ⟨place, hplace⟩ : ∃ place, LeadsTo (steps (child w p)) place := ⟨_, leadsTo_iff.mpr rfl⟩
  have hsteps : steps (if isAbsolute p then p else w ++ '/' :: p) = steps (child w p) := by
    rw [steps_child]
    split_ifs
    · rfl
    · exact steps_append w p
  have hnames : ∀ name ∈ place, IsName name := hplace.isName fun s => mem_steps
  have heq : absolute w p = '/' :: ['/'].intercalate place := absolute_eq rfl hplace
  rw [hsteps]
  refine ⟨⟨place, hplace⟩, fun other hother => absolute_eq rfl hother, ?_, ?_, ?_,
    fun h => ⟨not_mem_basename p, basename_suffix p, absolute_dirname_basename w h⟩⟩
  all_goals rw [heq]
  · rfl
  · by_cases hroot : place = []
    · exact .inl (by rw [hroot]; rfl)
    · refine .inr ⟨fun hlast => hroot (eq_nil_of_getLast? hnames hlast), place,
        splitOn_ofNames hroot hnames, fun name hname => ?_⟩
      exact ⟨(hnames name hname).1, (hnames name hname).2.1, (hnames name hname).2.2.1⟩
  · exact absolute_ofNames w hnames

theorem absolute_lexical_climbing :
    LeadsTo (["w", "..", "..", "a", "b"].map String.toList) (["a", "b"].map String.toList) ∧
      '/' ∈ ".././..//a//b".toList ∧
      absolute "/w".toList ".././..//a//b".toList = "/a/b".toList ∧
      dirname ".././..//a//b".toList = ".././..//a".toList ∧
      absolute "/w".toList (".././..//a".toList ++ '/' :: basename ".././..//a//b".toList) =
        "/a/b".toList := by
  have hplace : LeadsTo (["w", "..", "..", "a", "b"].map String.toList)
      (["a", "b"].map String.toList) := leadsTo_iff.mpr (by decide)
  have hslash : '/' ∈ ".././..//a//b".toList := by decide
  obtain ⟨-, hleads, -, -, -, hcut⟩ := absolute_lexical "/w".toList ".././..//a//b".toList
  have habsolute : absolute "/w".toList ".././..//a//b".toList = "/a/b".toList := hleads _ hplace
  have hdirname : dirname ".././..//a//b".toList = ".././..//a".toList := by decide
  exact ⟨hplace, hslash, habsolute, hdirname, hdirname ▸ (hcut hslash).2.2.trans habsolute⟩

end Countermand.Path

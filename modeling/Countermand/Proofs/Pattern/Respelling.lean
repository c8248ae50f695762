import Countermand.Proofs.Pattern.Naming

/-! One option can be spelled in several ways: a long name may be cut short, a value may be attached
or stand as a word of its own, and letters may share a dash. All spellings of what stands in one
place bind the same, whatever stands before and behind. -/
namespace Countermand
open Results Matching

namespace Slot

/-- A value that is attached may as well be the next word. -/
def Detaches (s : Slot) (value : Text) : Prop :=
  match s.argument.quantifier with
  | .exactly count => 1 ≤ count
  | .atLeastOne | .any =>
    s.argument.delimiter = none → value.head? ≠ some '-' ∨ value = ['-']
  | .flag | .optional => False

end Slot

namespace Pattern

def IsFlagLetter (p : Pattern) (c : Char) : Prop := ∃ s, p.Names ['-', c] s ∧ s.isFlag = true

def longWord (name : Text) (attached : Option Text) : Text :=
  name ++ attached.elim [] ('=' :: ·)

/-- Two spellings of the same options. -/
inductive Respelling (p : Pattern) : List Text → List Text → Prop
  /-- Two dashes alone are no abbreviation, since they end the options. -/
  | abbreviation {short full : Text} {s : Slot} (attached : Option Text) :
      p.Abbreviates short s → p.Names full s → short <+: full →
      longWord short attached ≠ "--".toList →
      Respelling p [longWord short attached] [longWord full attached]
  | longValue {name value : Text} {s : Slot} : p.Names name s → "--".toList <+: name →
      s.Detaches value → Respelling p [longWord name (some value)] [name, value]
  | shortValue {x : Char} {value : Text} {s : Slot} : p.Names ['-', x] s → value ≠ [] →
      s.Detaches value → Respelling p ['-' :: x :: value] [['-', x], value]
  | flags {letters : Text} : letters ≠ [] → (∀ c ∈ letters, p.IsFlagLetter c) →
      Respelling p ['-' :: letters] (letters.map fun c => ['-', c])
  /-- The value may be empty, so that it is taken from the words behind. -/
  | flagsAndValue {letters value : Text} {x : Char} {s : Slot} :
      (∀ c ∈ letters, p.IsFlagLetter c) → p.Names ['-', x] s → s.isFlag = false →
      Respelling p ['-' :: (letters ++ x :: value)]
        (letters.map (fun c => ['-', c]) ++ ['-' :: x :: value])

end Pattern

namespace Slot
variable {s : Slot} {value : Text}

theorem Detaches.isFlag (h : s.Detaches value) : s.isFlag = false := by
  cases hq : s.argument.quantifier with
  | flag => simp [Detaches, hq] at h
  | optional => simp [Detaches, hq] at h
  | exactly count =>
    have hpos : 1 ≤ count := by simpa [Detaches, hq] using h
    have hne : count ≠ 0 := by omega
    simpa [Slot.isFlag, Quantifier.isFlag, hq] using hne
  | atLeastOne => simp [Slot.isFlag, Quantifier.isFlag, hq]
  | any => simp [Slot.isFlag, Quantifier.isFlag, hq]

theorem Detaches.isOptionLike (h : s.Detaches value) (hs : s.Runs) :
    isOptionLike value = false := by
  obtain ⟨hd, hq⟩ := hs
  have hvalue : value.head? ≠ some '-' ∨ value = ['-'] := by
    rcases hq with hq | hq <;> simpa [Detaches, hq, hd] using h
  rcases hvalue with hvalue | rfl
  · unfold Matching.isOptionLike
    split
    · simp at hvalue
    · rfl
  · rfl

end Slot

namespace Matching

theorem occurrence_detached {s : Slot} {value : Text} (h : s.Detaches value)
    (following : List Text) :
    occurrence s none (value :: following) =
      occurrence s (some value) following >>= fun (a, used) => pure (a, used + 1) := by
  by_cases hs : s.Runs
  · rw [occurrence_runs hs, occurrence_runs hs]
    simp [h.isOptionLike hs]
  have hflag := h.isFlag
  cases hd : s.argument.delimiter with
  | some d =>
    have hq : s.argument.quantifier ≠ .optional := fun hq => by simp [Slot.Detaches, hq] at h
    rw [occurrence_delimited hflag hd hq]
    cases hquantifier : s.argument.quantifier <;> simp_all [occurrence]
  | none =>
    cases hq : s.argument.quantifier with
    | flag => simp [Slot.Detaches, hq] at h
    | optional => simp [Slot.Detaches, hq] at h
    | atLeastOne => exact absurd ⟨hd, .inl hq⟩ hs
    | any => exact absurd ⟨hd, .inr hq⟩ hs
    | exactly count =>
      have hpos : 1 ≤ count := by simpa [Slot.Detaches, hq] using h
      obtain ⟨more, rfl⟩ := Nat.exists_eq_add_of_le' hpos
      have hfew : (value :: following).length < more + 1 ↔ following.length < more := by simp
      simp only [occurrence, hflag, hq, hd, hfew, Bool.false_eq_true, ↓reduceIte,
        Option.toList_none, Option.toList_some, List.length_nil, List.length_singleton,
        Nat.sub_zero, Nat.add_sub_cancel, List.nil_append, List.take_succ_cons,
        List.singleton_append]
      by_cases hmissing : following.length < more
      · rw [if_pos hmissing, if_pos hmissing]
        rfl
      · rw [if_neg hmissing, if_neg hmissing]
        cases following.take more <;> rfl

section
variable {spellings : List (Text × Slot)}

theorem ofWord_longWord {name : Text} (hlong : "--".toList <+: name) (he : '=' ∉ name)
    (attached : Option Text) :
    Request.ofWord spellings (Pattern.longWord name attached) =
      findOption spellings name >>= fun s => pure ⟨[], some (s, attached)⟩ := by
  have hprefix : "--".toList.isPrefixOf (Pattern.longWord name attached) = true :=
    List.isPrefixOf_iff_prefix.mpr (hlong.trans (List.prefix_append _ _))
  have hparts : Request.nameAndValue (Pattern.longWord name attached) = (name, attached) := by
    cases attached with
    | none =>
      simp [Request.nameAndValue, Pattern.longWord, Text.cutAt_singleton_eq_none he]
    | some value =>
      simp [Request.nameAndValue, Pattern.longWord, Text.cutAt_singleton he value]
  rw [Request.ofWord, if_pos hprefix, hparts]

def IsOptionWord (word : Text) : Prop := isOptionLike word = true ∧ word ≠ "--".toList

theorem isOptionWord_letters {c : Char} (hc : c ≠ '-') (cs : Text) :
    IsOptionWord ('-' :: c :: cs) := by
  refine ⟨rfl, fun he => hc ?_⟩
  obtain ⟨rfl, -⟩ : c = '-' ∧ cs = [] := by simpa using he
  rfl

theorem isOptionWord_long {word : Text} (hlong : "--".toList <+: word)
    (hdashes : word ≠ "--".toList) : IsOptionWord word := by
  obtain ⟨rest, rfl⟩ := hlong
  exact ⟨rfl, hdashes⟩

theorem scanOptions_optionWord {word : Text} (hword : IsOptionWord word) (following : List Text) :
    scanOptions spellings (word :: following) =
      Request.ofWord spellings word >>= fun r => do
        let (assignments, used) ← r.grant following
        let (more, left) ← scanOptions spellings (following.drop used)
        return (assignments ++ more, left) := by
  rw [scanOptions, if_neg hword.2, if_pos hword.1, optionWord_eq_grant hword.1]
  cases Request.ofWord spellings word <;> rfl

theorem scanOptions_detached {word name value : Text} {s : Slot} (hword : IsOptionWord word)
    (hname : IsOptionWord name) (h : Request.ofWord spellings word = .ok ⟨[], some (s, some value)⟩)
    (h' : Request.ofWord spellings name = .ok ⟨[], some (s, none)⟩) (hs : s.Detaches value)
    (following : List Text) :
    scanOptions spellings (word :: following) =
      scanOptions spellings (name :: value :: following) := by
  rw [scanOptions_optionWord hword, scanOptions_optionWord hname, h, h', ok_bind, ok_bind,
    Request.grant, Request.grant]
  dsimp only
  rw [occurrence_detached hs]
  cases occurrence s (some value) following with
  | error e => rfl
  | ok found => simp [List.drop_succ_cons]

section
variable {c : Char} {s : Slot}

theorem ofLetters_flag (hs : findOption spellings ['-', c] = .ok s) (hflag : s.isFlag = true)
    (cs : Text) :
    Request.ofLetters spellings (c :: cs) =
      Request.ofLetters spellings cs >>= fun r => pure ⟨s :: r.flags, r.last⟩ := by
  rw [Request.ofLetters, hs, ok_bind, if_pos hflag]

theorem ofLetters_value (hs : findOption spellings ['-', c] = .ok s) (hflag : s.isFlag = false)
    (cs : Text) :
    Request.ofLetters spellings (c :: cs) =
      .ok ⟨[], some (s, if cs = [] then none else some cs)⟩ := by
  rw [Request.ofLetters, hs, ok_bind, if_neg (by simp [hflag])]
  rfl

theorem scanOptions_flag (hc : c ≠ '-') (hs : findOption spellings ['-', c] = .ok s)
    (hflag : s.isFlag = true) (following : List Text) :
    scanOptions spellings (['-', c] :: following) =
      scanOptions spellings following >>= fun (more, left) =>
        pure (.put s.variableName (.flag true) :: more, left) := by
  rw [scanOptions_optionWord (isOptionWord_letters hc _), ofWord_letters hc,
    ofLetters_flag hs hflag]
  rfl

theorem scanOptions_flagLetter (hc : c ≠ '-') (hs : findOption spellings ['-', c] = .ok s)
    (hflag : s.isFlag = true) {d : Char} (hd : d ≠ '-') (ds : Text) (following : List Text) :
    scanOptions spellings (('-' :: c :: d :: ds) :: following) =
      scanOptions spellings (['-', c] :: ('-' :: d :: ds) :: following) := by
  rw [scanOptions_flag hc hs hflag, scanOptions_optionWord (isOptionWord_letters hc _),
    scanOptions_optionWord (isOptionWord_letters hd _), ofWord_letters hc, ofWord_letters hd,
    ofLetters_flag hs hflag]
  cases Request.ofLetters spellings (d :: ds) with
  | error e => rfl
  | ok r =>
    simp only [ok_bind, pure_eq_ok]
    rw [r.grant_flag]
    cases r.grant following with
    | error e => rfl
    | ok found =>
      obtain ⟨as, used⟩ := found
      simp only [ok_bind, pure_eq_ok]
      cases scanOptions spellings (following.drop used) <;> rfl

end

theorem scanOptions_flagLetters {letters : Text} (hletters : ∀ c ∈ letters, c ≠ '-' ∧
      ∃ s, findOption spellings ['-', c] = .ok s ∧ s.isFlag = true)
    {d : Char} (hd : d ≠ '-') (ds : Text) (following : List Text) :
    scanOptions spellings (('-' :: (letters ++ d :: ds)) :: following) =
      scanOptions spellings (letters.map (fun c => ['-', c]) ++ ('-' :: d :: ds) :: following) := by
  induction letters with
  | nil => rfl
  | cons c cs ih =>
    obtain ⟨⟨hc, s, hs, hflag⟩, hcs⟩ := List.forall_mem_cons.mp hletters
    have hnext : ∃ e es, cs ++ d :: ds = e :: es ∧ e ≠ '-' := by
      cases cs with
      | nil => exact ⟨d, ds, rfl, hd⟩
      | cons e es => exact ⟨e, es ++ d :: ds, rfl, (hcs e (by simp)).1⟩
    obtain ⟨e, es, hes, he⟩ := hnext
    calc scanOptions spellings (('-' :: c :: (cs ++ d :: ds)) :: following)
      _ = scanOptions spellings (['-', c] :: ('-' :: (cs ++ d :: ds)) :: following) := by
          rw [hes]
          exact scanOptions_flagLetter hc hs hflag he es following
      _ = scanOptions spellings (['-', c] ::
            (cs.map (fun c => ['-', c]) ++ ('-' :: d :: ds) :: following)) := by
          rw [scanOptions_flag hc hs hflag, ih hcs, ← scanOptions_flag hc hs hflag]

end

end Matching

namespace Pattern
variable {p : Pattern}

theorem Names.findOption_eq {name : Text} {s : Slot} (h : p.Names name s) :
    findOption p.spellings name = .ok s :=
  findOption_eq_ok_iff.mpr (.inl h)

theorem Abbreviates.findOption_eq {short : Text} {s : Slot} (h : p.Abbreviates short s) :
    findOption p.spellings short = .ok s :=
  findOption_eq_ok_iff.mpr (.inr h)

def Spelled (p : Pattern) : Prop := ∀ name s, p.Names name s → Argument.isSpelling name = true

theorem spelled_of_read {t : Text} (hp : read t = .ok p) : p.Spelled := by
  intro name s h
  obtain ⟨hs, hname⟩ := h.declared
  have hmem : s.argument ∈ p.allArguments :=
    map_argument_slots p ▸ List.mem_map_of_mem (mem_slots_of_optionSlots hs)
  exact (wellFormed_of_read hp _ hmem).1.spelled name hname

namespace Spelled

theorem ne_dash (hp : p.Spelled) {c : Char} {s : Slot} (h : p.Names ['-', c] s) : c ≠ '-' := by
  rintro rfl
  exact absurd (hp _ s h) (by decide)

theorem long (hp : p.Spelled) {name : Text} {s : Slot} (h : p.Names name s)
    (hlong : "--".toList <+: name) : name ≠ "--".toList ∧ '=' ∉ name := by
  rcases Argument.spelling_cases (hp name s h) with ⟨c, hc, rfl⟩ | ⟨long, rfl, hl, he⟩
  · obtain rfl : '-' = c := by simpa using hlong
    exact absurd hc (by decide)
  · refine ⟨by simpa using hl, fun hmem => ?_⟩
    exact absurd (he '=' (by simpa using hmem)) (by decide)

theorem flagLetter (hp : p.Spelled) {c : Char} (h : p.IsFlagLetter c) :
    c ≠ '-' ∧ ∃ s, findOption p.spellings ['-', c] = .ok s ∧ s.isFlag = true := by
  obtain ⟨s, hs, hflag⟩ := h
  exact ⟨hp.ne_dash hs, s, hs.findOption_eq, hflag⟩

end Spelled

theorem isOptionWord_longWord {name : Text} (hlong : "--".toList <+: name)
    {attached : Option Text} (h : longWord name attached ≠ "--".toList) :
    IsOptionWord (longWord name attached) :=
  isOptionWord_long (hlong.trans (List.prefix_append _ _)) h

theorem longWord_ne_dashes {name : Text} (h : name ≠ "--".toList) (hlong : "--".toList <+: name)
    (attached : Option Text) : longWord name attached ≠ "--".toList := by
  obtain ⟨rest, rfl⟩ := hlong
  intro he
  have hrest : rest = [] ∧ attached.elim [] ('=' :: ·) = [] := by simpa [longWord] using he
  exact h (by rw [hrest.1, List.append_nil])

/-- Spellings scan alike in front of any words. -/
theorem Respelling.scanOptions_eq (hp : p.Spelled) {xs ys : List Text} (h : p.Respelling xs ys)
    (behind : List Text) :
    scanOptions p.spellings (xs ++ behind) = scanOptions p.spellings (ys ++ behind) := by
  cases h with
  | @abbreviation short full s attached hshort hname hfront hdashes =>
    have hlong := hshort.long.trans hfront
    have hfull := hp.long hname hlong
    have hword := isOptionWord_longWord hshort.long hdashes
    have hother := isOptionWord_longWord hlong (longWord_ne_dashes hfull.1 hlong attached)
    have he : '=' ∉ short := fun hmem => hfull.2 (hfront.subset hmem)
    rw [List.singleton_append, List.singleton_append, scanOptions_optionWord hword,
      scanOptions_optionWord hother, ofWord_longWord hshort.long he, ofWord_longWord hlong hfull.2,
      hshort.findOption_eq, hname.findOption_eq]
  | @longValue name value s hs hlong hdetaches =>
    obtain ⟨hdashes, he⟩ := hp.long hs hlong
    have hword := isOptionWord_longWord hlong (longWord_ne_dashes hdashes hlong (some value))
    refine scanOptions_detached hword (isOptionWord_long hlong hdashes) ?_ ?_ hdetaches behind
    · rw [ofWord_longWord hlong he, hs.findOption_eq]
      rfl
    · have hname : longWord name none = name := List.append_nil name
      rw [← hname, ofWord_longWord hlong he, hs.findOption_eq]
      rfl
  | @shortValue x value s hs hne hdetaches =>
    have hx := hp.ne_dash hs
    refine scanOptions_detached (isOptionWord_letters hx _) (isOptionWord_letters hx _) ?_ ?_
      hdetaches behind
    · rw [ofWord_letters hx, ofLetters_value (hs.findOption_eq) hdetaches.isFlag, if_neg hne]
    · rw [ofWord_letters hx, ofLetters_value (hs.findOption_eq) hdetaches.isFlag, if_pos rfl]
  | @flags letters hne hletters =>
    obtain ⟨init, x, rfl⟩ := (List.eq_nil_or_concat' letters).resolve_left hne
    obtain ⟨hinit, hx⟩ := List.forall_mem_append.mp hletters
    rw [List.map_append, List.append_assoc]
    exact scanOptions_flagLetters (fun c hc => hp.flagLetter (hinit c hc))
      (hp.flagLetter (hx x (by simp))).1 [] behind
  | @flagsAndValue letters value x s hletters hs _ =>
    rw [List.append_assoc]
    exact scanOptions_flagLetters (fun c hc => hp.flagLetter (hletters c hc)) (hp.ne_dash hs) value
      behind

theorem Respelling.endsRun {xs ys : List Text} (h : p.Respelling xs ys) (behind : List Text) :
    EndsRun (xs ++ behind) ∧ EndsRun (ys ++ behind) := by
  have hlong {name : Text} (hname : "--".toList <+: name) (attached : Option Text)
      (words : List Text) : EndsRun (longWord name attached :: words) := by
    obtain ⟨rest, rfl⟩ := hname
    exact endsRun_cons rfl words
  cases h with
  | abbreviation attached hshort _ hfront _ =>
    exact ⟨hlong hshort.long attached _, hlong (hshort.long.trans hfront) attached _⟩
  | @longValue name value s _ hname _ =>
    have hnone : longWord name none = name := List.append_nil name
    exact ⟨hlong hname (some value) _, hnone ▸ hlong hname none _⟩
  | shortValue _ _ _ => exact ⟨endsRun_cons rfl _, endsRun_cons rfl _⟩
  | @flags letters hne _ =>
    obtain ⟨c, cs, rfl⟩ := List.exists_cons_of_ne_nil hne
    exact ⟨endsRun_cons rfl _, endsRun_cons rfl _⟩
  | @flagsAndValue letters _ _ _ _ _ _ =>
    cases letters with
    | nil => exact ⟨endsRun_cons rfl _, endsRun_cons rfl _⟩
    | cons c cs => exact ⟨endsRun_cons rfl _, endsRun_cons rfl _⟩

/-- What stands behind words that are all consumed may be spelled in another way. -/
theorem bind_respelled {t : Text} (hp : read t = .ok p) {before : List Text} {found : List Phrase}
    (hbefore : phrases p.spellings before = .ok (found, [])) {xs ys : List Text}
    (h : p.Respelling xs ys) (behind : List Text) :
    p.bind (p.command :: (p.subcommands ++ (before ++ (xs ++ behind)))) =
      p.bind (p.command :: (p.subcommands ++ (before ++ (ys ++ behind)))) := by
  have hphrased := isPhrased_of_phrases hbefore
  obtain ⟨hxs, hys⟩ := h.endsRun behind
  rw [bind_arguments, bind_arguments, hphrased.scanOptions_append hxs,
    hphrased.scanOptions_append hys, h.scanOptions_eq (spelled_of_read hp) behind]

theorem bind_respelled_packer :
    read
      "ar pack [SKIP*:-s --skip] [--color[=WHEN]] !([?:-x] [?:-y]) <PARTS...:,:> <FILES*>".toList =
        .ok packer ∧
      packer.bind (["ar", "pack", "--skip", "a", "-xsb", "c", "--", "p,q"].map String.toList) =
        packer.bind (["ar", "pack", "--skip", "a", "-x", "-sb", "c", "--", "p,q"].map
          String.toList) := by
  have hbefore : phrases packer.spellings ["--skip".toList, "a".toList] = .ok
      ([.option "--skip".toList ["a".toList] [.extend "SKIP".toList ["a".toList]]], []) := by
    cbv
  have hletters : packer.Respelling ['-' :: (['x'] ++ 's' :: ['b'])]
      (['x'].map (fun c => ['-', c]) ++ ['-' :: 's' :: ['b']]) := by
    refine .flagsAndValue ?_ (s := packer.optionSlots[0]) rfl rfl
    exact List.forall_mem_singleton.mpr ⟨packer.optionSlots[2], rfl, rfl⟩
  exact ⟨read_packer, bind_respelled read_packer hbefore hletters
    (["c", "--", "p,q"].map String.toList)⟩

/-- Two dashes are the front of the only long name, but they end the options. -/
theorem dashes_do_not_abbreviate :
    read "rm [?:-f --force]".toList = .ok remover ∧ remover.optionNames.Nodup ∧
      remover.Abbreviates "--".toList remover.optionSlots[0] ∧
      remover.Names "--force".toList remover.optionSlots[0] ∧
      remover.bind ["rm".toList, "--".toList] = .ok [("FORCE".toList, .flag false)] ∧
      remover.bind ["rm".toList, "--force".toList] = .ok [("FORCE".toList, .flag true)] := by
  have hname : remover.Names "--force".toList remover.optionSlots[0] := rfl
  refine ⟨read_remover, by decide, ?_, hname, by cbv, by cbv⟩
  refine ⟨by decide, List.prefix_rfl, ⟨_, hname, by decide⟩, fun full s hs _ => ?_⟩
  exact List.mem_singleton.mp hs.declared.1

end Pattern
end Countermand

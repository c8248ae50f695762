import Countermand.Proofs.Pattern.Binding

/-! The phrases of a command line: what each step of a scan consumes, a word for the positionals
or an option word with its values. Only the last option that a word names reads the words behind
it, so a phrase reads the same in front of other words, unless it is a run of values that these
would continue. -/
namespace Countermand
open Results

namespace Slot

/-- The values of the option are a run of words that ends at the next option. -/
def Runs (s : Slot) : Prop :=
  s.argument.delimiter = none ∧
    (s.argument.quantifier = .atLeastOne ∨ s.argument.quantifier = .any)

instance (s : Slot) : Decidable s.Runs := inferInstanceAs (Decidable (_ ∧ _))

end Slot

namespace Matching

def EndsRun (words : List Text) : Prop := ∀ word ∈ words.head?, isOptionLike word = true

theorem endsRun_cons {word : Text} (h : isOptionLike word = true) (words : List Text) :
    EndsRun (word :: words) := by
  rintro other ⟨⟩
  exact h

theorem takeWhile_append_of_endsRun (words : List Text) {behind : List Text}
    (hb : EndsRun behind) :
    (words ++ behind).takeWhile (!isOptionLike ·) = words.takeWhile (!isOptionLike ·) := by
  induction words with
  | nil =>
    cases behind with
    | nil => rfl
    | cons word behind => simp [hb word rfl]
  | cons word words ih => by_cases h : isOptionLike word <;> simp [h, ih]

section
variable {s : Slot} {attached : Option Text} {following : List Text} {a : Assignment} {used : Nat}

theorem occurrence_runs (hs : s.Runs) :
    occurrence s attached following =
      let run := following.takeWhile (!isOptionLike ·)
      if s.argument.quantifier = .atLeastOne ∧ attached.toList ++ run = [] then
        .error (.noValue s.variableName)
      else .ok (.extend s.variableName (attached.toList ++ run), run.length) := by
  obtain ⟨hd, hq | hq⟩ := hs <;>
    simp [occurrence, Slot.isFlag, Quantifier.isFlag, hd, hq]

theorem occurrence_settled (hs : ¬s.Runs) (h : occurrence s attached following = .ok (a, used)) :
    used ≤ following.length ∧
      ∀ behind, occurrence s attached (following.take used ++ behind) = .ok (a, used) := by
  unfold occurrence at h ⊢
  dsimp only at h ⊢
  split_ifs at h ⊢ with hflag hattached
  · obtain ⟨rfl, rfl⟩ := Prod.mk.inj (Except.ok.inj h)
    exact ⟨Nat.zero_le _, fun _ => rfl⟩
  split at h
  · have hused : used = 0 := by
      split at h <;> exact (Prod.mk.inj (Except.ok.inj h)).2.symm
    subst hused
    exact ⟨Nat.zero_le _, fun _ => h⟩
  · split at h
    · obtain ⟨rfl, rfl⟩ := Prod.mk.inj (Except.ok.inj h)
      exact ⟨Nat.zero_le _, fun _ => rfl⟩
    · obtain ⟨rfl, rfl⟩ := Prod.mk.inj (Except.ok.inj h)
      exact ⟨by simp, fun _ => rfl⟩
    · simp at h
  · rename_i count hq hd
    split_ifs at h with hfew
    have hused : used = count - attached.toList.length := by
      split at h <;> exact (Prod.mk.inj (Except.ok.inj h)).2.symm
    subst hused
    refine ⟨by omega, fun behind => ?_⟩
    have htake : (following.take (count - attached.toList.length) ++ behind).take
        (count - attached.toList.length) = following.take (count - attached.toList.length) :=
      List.take_left' (by rw [List.length_take]; omega)
    rw [if_neg (by rw [List.length_append, List.length_take]; omega), htake]
    exact h
  · rename_i hd hoptional hcounted
    refine absurd ⟨hd, ?_⟩ hs
    cases hq : s.argument.quantifier with
    | flag => exact absurd (by simp [Slot.isFlag, Quantifier.isFlag, hq]) hflag
    | optional => exact absurd hq hoptional
    | exactly count => exact absurd hq (hcounted count)
    | atLeastOne => exact .inl rfl
    | any => exact .inr rfl

/-- What an occurrence binds, and how many words it uses, does not depend on the words behind
these as long as they end its run. -/
theorem occurrence_append (h : occurrence s attached following = .ok (a, used))
    {behind : List Text} (hb : EndsRun behind) :
    occurrence s attached (following ++ behind) = .ok (a, used) := by
  by_cases hs : s.Runs
  · rw [occurrence_runs hs] at h ⊢
    rwa [takeWhile_append_of_endsRun following hb]
  · obtain ⟨hle, hsettled⟩ := occurrence_settled hs h
    have hsplit : following ++ behind = following.take used ++ (following.drop used ++ behind) := by
      rw [← List.append_assoc, List.take_append_drop]
    rw [hsplit]
    exact hsettled _

theorem used_le_of_occurrence (h : occurrence s attached following = .ok (a, used)) :
    used ≤ following.length := by
  by_cases hs : s.Runs
  · rw [occurrence_runs hs] at h
    dsimp only at h
    split_ifs at h
    obtain ⟨-, rfl⟩ := Prod.mk.inj (Except.ok.inj h)
    exact (List.takeWhile_sublist _).length_le
  · exact (occurrence_settled hs h).1

end

/-- What an option word asks for: flags, and at its end perhaps an option that takes values, with
the value attached to it. -/
structure Request where
  flags : List Slot
  last : Option (Slot × Option Text)

namespace Request

/-- The letters behind a dash are flags; a letter that takes a value ends them, and what follows it
is that value. -/
def ofLetters (spellings : List (Text × Slot)) : Text → Except Mismatch Request
  | [] => .ok ⟨[], none⟩
  | c :: cs => do
    let s ← findOption spellings ['-', c]
    if s.isFlag then
      let r ← ofLetters spellings cs
      return ⟨s :: r.flags, r.last⟩
    else return ⟨[], some (s, if cs = [] then none else some cs)⟩

def nameAndValue (word : Text) : Text × Option Text :=
  match Text.cutAt ['='] word with
  | some (name, value) => (name, some value)
  | none => (word, none)

def ofWord (spellings : List (Text × Slot)) (word : Text) : Except Mismatch Request :=
  if "--".toList.isPrefixOf word then do
    let s ← findOption spellings (nameAndValue word).1
    return ⟨[], some (s, (nameAndValue word).2)⟩
  else ofLetters spellings word.tail

def grant (r : Request) (following : List Text) : Except Mismatch (List Assignment × Nat) :=
  let given := r.flags.map fun s => Assignment.put s.variableName (.flag true)
  match r.last with
  | none => .ok (given, 0)
  | some (s, attached) => do
    let (a, used) ← occurrence s attached following
    return (given ++ [a], used)

theorem grant_flag (r : Request) (s : Slot) (following : List Text) :
    (⟨s :: r.flags, r.last⟩ : Request).grant following =
      r.grant following >>= fun (as, used) =>
        pure (.put s.variableName (.flag true) :: as, used) := by
  obtain ⟨flags, last⟩ := r
  cases last with
  | none => rfl
  | some last =>
    obtain ⟨t, attached⟩ := last
    simp only [grant]
    cases occurrence t attached following <;> rfl

end Request

section
variable {spellings : List (Text × Slot)}

theorem cluster_eq_grant (letters : Text) (following : List Text) :
    cluster spellings letters following =
      Request.ofLetters spellings letters >>= (·.grant following) := by
  induction letters with
  | nil => rfl
  | cons c cs ih =>
    rw [cluster, Request.ofLetters]
    cases hfind : findOption spellings ['-', c] with
    | error e => rfl
    | ok s =>
      simp only [ok_bind]
      split_ifs with hflag hcs
      · rw [ih]
        cases Request.ofLetters spellings cs with
        | error e => rfl
        | ok r => exact (r.grant_flag s following).symm
      · rfl
      · rfl

theorem optionLike_cases {word : Text} (h : isOptionLike word = true) :
    "--".toList.isPrefixOf word = true ∨ ∃ c cs, c ≠ '-' ∧ word = '-' :: c :: cs := by
  unfold isOptionLike at h
  split at h
  · rename_i c cs
    by_cases hc : c = '-'
    · subst hc
      exact .inl rfl
    · exact .inr ⟨c, cs, hc, rfl⟩
  · simp at h

theorem optionWord_letters {c : Char} (hc : c ≠ '-') (cs : Text) (following : List Text) :
    optionWord spellings ('-' :: c :: cs) following = cluster spellings (c :: cs) following := by
  have hlong : ¬"--".toList.isPrefixOf ('-' :: c :: cs) = true := by simp [hc.symm]
  rw [optionWord, if_neg hlong, cluster]
  show (findOption spellings ['-', c] >>= _) = _
  cases findOption spellings ['-', c] with
  | error e => rfl
  | ok s =>
    cases cs with
    | nil => by_cases hflag : s.isFlag <;> simp [hflag, occurrence, cluster]
    | cons d ds => rfl

theorem ofWord_letters {c : Char} (hc : c ≠ '-') (cs : Text) :
    Request.ofWord spellings ('-' :: c :: cs) = Request.ofLetters spellings (c :: cs) := by
  have hshort : ¬"--".toList.isPrefixOf ('-' :: c :: cs) = true := by simp [hc.symm]
  rw [Request.ofWord, if_neg hshort]
  rfl

/-- An option word asks for something on its own; only what it gets depends on what follows. -/
theorem optionWord_eq_grant {word : Text} (h : isOptionLike word = true) (following : List Text) :
    optionWord spellings word following =
      Request.ofWord spellings word >>= (·.grant following) := by
  rcases optionLike_cases h with hlong | ⟨c, cs, hc, rfl⟩
  · rw [optionWord, if_pos hlong, Request.ofWord, if_pos hlong, Request.nameAndValue]
    cases Text.cutAt ['='] word with
    | none =>
      dsimp only
      cases findOption spellings word <;> rfl
    | some cut =>
      dsimp only
      cases findOption spellings cut.1 <;> rfl
  · rw [optionWord_letters hc, cluster_eq_grant, ofWord_letters hc]

theorem mem_of_ofLetters {letters : Text} {r : Request}
    (h : Request.ofLetters spellings letters = .ok r) {s : Slot} {attached : Option Text}
    (hl : r.last = some (s, attached)) : ∃ known, (known, s) ∈ spellings := by
  induction letters generalizing r with
  | nil =>
    obtain rfl := Except.ok.inj h
    simp at hl
  | cons c cs ih =>
    obtain ⟨t, hfind, h⟩ := bind_eq_ok.mp h
    split_ifs at h with hflag
    · obtain ⟨rest, hrest, he⟩ := bind_eq_ok.mp h
      obtain rfl := Except.ok.inj he
      exact ih hrest hl
    all_goals
      obtain rfl := Except.ok.inj h
      obtain ⟨rfl, -⟩ := Prod.mk.inj (Option.some.inj hl)
      exact mem_of_findOption hfind

theorem mem_of_ofWord {word : Text} {r : Request} (h : Request.ofWord spellings word = .ok r)
    {s : Slot} {attached : Option Text} (hl : r.last = some (s, attached)) :
    ∃ known, (known, s) ∈ spellings := by
  rw [Request.ofWord] at h
  split_ifs at h with hlong
  · obtain ⟨t, hfind, he⟩ := bind_eq_ok.mp h
    obtain rfl := Except.ok.inj he
    obtain ⟨rfl, -⟩ := Prod.mk.inj (Option.some.inj hl)
    exact mem_of_findOption hfind
  · exact mem_of_ofLetters h hl

theorem Request.grant_congr {r : Request} {following others : List Text} {as : List Assignment}
    {used : Nat} (h : r.grant following = .ok (as, used))
    (hl : ∀ s attached a, r.last = some (s, attached) →
      occurrence s attached following = .ok (a, used) →
        occurrence s attached others = .ok (a, used)) :
    r.grant others = .ok (as, used) := by
  obtain ⟨flags, last⟩ := r
  cases last with
  | none => exact h
  | some last =>
    obtain ⟨s, attached⟩ := last
    obtain ⟨⟨a, n⟩, ha, he⟩ := bind_eq_ok.mp h
    obtain ⟨rfl, rfl⟩ := Prod.mk.inj (Except.ok.inj he)
    simp only [grant, hl s attached a rfl ha, ok_bind, pure_eq_ok]

section
variable {word : Text} {following : List Text} {as : List Assignment} {used : Nat}

theorem used_le_of_optionWord (hword : isOptionLike word = true)
    (h : optionWord spellings word following = .ok (as, used)) : used ≤ following.length := by
  rw [optionWord_eq_grant hword] at h
  obtain ⟨⟨flags, last⟩, -, h⟩ := bind_eq_ok.mp h
  cases last with
  | none =>
    obtain ⟨-, rfl⟩ := Prod.mk.inj (Except.ok.inj h)
    exact Nat.zero_le _
  | some last =>
    obtain ⟨⟨a, n⟩, ha, he⟩ := bind_eq_ok.mp h
    obtain ⟨-, rfl⟩ := Prod.mk.inj (Except.ok.inj he)
    exact used_le_of_occurrence ha

theorem optionWord_append (hword : isOptionLike word = true)
    (h : optionWord spellings word following = .ok (as, used)) {behind : List Text}
    (hb : EndsRun behind) : optionWord spellings word (following ++ behind) = .ok (as, used) := by
  rw [optionWord_eq_grant hword] at h ⊢
  obtain ⟨r, hr, h⟩ := bind_eq_ok.mp h
  rw [hr, ok_bind]
  exact Request.grant_congr h fun _ _ _ _ ha => occurrence_append ha hb

/-- Without options that run on, an option word and its values read the same wherever they
stand. -/
theorem optionWord_settled (hs : ∀ entry ∈ spellings, ¬entry.2.Runs)
    (hword : isOptionLike word = true) (h : optionWord spellings word following = .ok (as, used))
    (behind : List Text) :
    optionWord spellings word (following.take used ++ behind) = .ok (as, used) := by
  rw [optionWord_eq_grant hword] at h ⊢
  obtain ⟨r, hr, h⟩ := bind_eq_ok.mp h
  rw [hr, ok_bind]
  refine Request.grant_congr h fun s attached a hl ha => ?_
  obtain ⟨known, hmem⟩ := mem_of_ofWord hr hl
  exact (occurrence_settled (hs _ hmem) ha).2 behind

end

end

/-- The words that one step of a scan consumes. -/
inductive Phrase
  | positional (word : Text)
  | option (word : Text) (values : List Text) (assignments : List Assignment)
  deriving DecidableEq, Repr

namespace Phrase

def words : Phrase → List Text
  | positional word => [word]
  | option word values _ => word :: values

def assignments : Phrase → List Assignment
  | positional _ => []
  | option _ _ assignments => assignments

def left : Phrase → List Text
  | positional word => [word]
  | option _ _ _ => []

end Phrase

/-- The phrases of a command line up to two dashes or its end, and the words from there on. -/
def phrases (spellings : List (Text × Slot)) (words : List Text) :
    Except Mismatch (List Phrase × List Text) :=
  match words with
  | [] => .ok ([], [])
  | word :: following =>
    if word = "--".toList then .ok ([], word :: following)
    else if isOptionLike word then do
      let (assignments, used) ← optionWord spellings word following
      let (more, ending) ← phrases spellings (following.drop used)
      return (.option word (following.take used) assignments :: more, ending)
    else do
      let (more, ending) ← phrases spellings following
      return (.positional word :: more, ending)
termination_by words.length
decreasing_by
  · simp only [List.length_drop, List.length_cons]; omega
  · simp

section
variable {spellings : List (Text × Slot)}

theorem phrases_option {word : Text} {following : List Text} {as : List Assignment} {used : Nat}
    (hword : isOptionLike word = true) (hdashes : word ≠ "--".toList)
    (h : optionWord spellings word following = .ok (as, used)) :
    phrases spellings (word :: following) =
      phrases spellings (following.drop used) >>= fun (more, ending) =>
        pure (.option word (following.take used) as :: more, ending) := by
  rw [phrases, if_neg hdashes, if_pos hword, h, ok_bind]

theorem phrases_positional {word : Text} (hword : isOptionLike word = false)
    (following : List Text) :
    phrases spellings (word :: following) =
      phrases spellings following >>= fun (more, ending) =>
        pure (.positional word :: more, ending) := by
  have hdashes : word ≠ "--".toList := by
    rintro rfl
    exact absurd hword (by decide)
  rw [phrases, if_neg hdashes, if_neg (by simp [hword])]

theorem phrases_dashes (tail : List Text) :
    phrases spellings ("--".toList :: tail) = .ok ([], "--".toList :: tail) := by
  rw [phrases, if_pos rfl]

/-- A scan yields the assignments of all phrases, and the words of the positional ones together
with those behind the two dashes. -/
theorem scanOptions_eq_phrases (words : List Text) :
    scanOptions spellings words =
      phrases spellings words >>= fun (found, ending) =>
        pure (found.flatMap Phrase.assignments, found.flatMap Phrase.left ++ ending.tail) := by
  fun_induction scanOptions spellings words with
  | case1 => simp [phrases]
  | case2 following => simp [phrases]
  | case3 word following hdashes hlike ih =>
    cases hfront : optionWord spellings word following with
    | error e => rw [phrases, if_neg hdashes, if_pos hlike, hfront]; rfl
    | ok front =>
      obtain ⟨as, used⟩ := front
      rw [phrases_option hlike hdashes hfront, ok_bind]
      dsimp only
      rw [ih used]
      cases phrases spellings (following.drop used) <;> simp [Phrase.assignments, Phrase.left]
  | case4 word following hdashes hlike ih =>
    rw [phrases_positional (by simpa using hlike), ih]
    cases phrases spellings following <;> simp [Phrase.assignments, Phrase.left]

/-- What can be left of a command line behind its phrases: nothing, or two dashes and a tail. -/
def IsEnding (ending : List Text) : Prop := ending = [] ∨ ∃ tail, ending = "--".toList :: tail

theorem IsEnding.phrases {ending : List Text} (h : IsEnding ending) :
    phrases spellings ending = .ok ([], ending) := by
  rcases h with rfl | ⟨tail, rfl⟩
  · rw [Matching.phrases]
  · exact phrases_dashes tail

inductive IsPhrased (spellings : List (Text × Slot)) :
    List Text → List Phrase → List Text → Prop
  | ending {ending : List Text} : IsEnding ending → IsPhrased spellings ending [] ending
  | option {word : Text} {following ending : List Text} {as : List Assignment} {used : Nat}
      {found : List Phrase} : isOptionLike word = true → word ≠ "--".toList →
      optionWord spellings word following = .ok (as, used) →
      IsPhrased spellings (following.drop used) found ending →
      IsPhrased spellings (word :: following) (.option word (following.take used) as :: found)
        ending
  | positional {word : Text} {following ending : List Text} {found : List Phrase} :
      isOptionLike word = false → IsPhrased spellings following found ending →
      IsPhrased spellings (word :: following) (.positional word :: found) ending

section
variable {words ending : List Text} {found : List Phrase}

theorem isPhrased_of_phrases (h : phrases spellings words = .ok (found, ending)) :
    IsPhrased spellings words found ending := by
  fun_induction phrases spellings words generalizing found ending with
  | case1 =>
    obtain ⟨rfl, rfl⟩ := Prod.mk.inj (Except.ok.inj h)
    exact .ending (.inl rfl)
  | case2 following =>
    obtain ⟨rfl, rfl⟩ := Prod.mk.inj (Except.ok.inj h)
    exact .ending (.inr ⟨following, rfl⟩)
  | case3 word following hdashes hlike ih =>
    obtain ⟨⟨as, used⟩, hword, h⟩ := bind_eq_ok.mp h
    obtain ⟨⟨more, rest⟩, hmore, he⟩ := bind_eq_ok.mp h
    obtain ⟨rfl, rfl⟩ := Prod.mk.inj (Except.ok.inj he)
    exact .option hlike hdashes hword (ih used hmore)
  | case4 word following hdashes hlike ih =>
    obtain ⟨⟨more, rest⟩, hmore, he⟩ := bind_eq_ok.mp h
    obtain ⟨rfl, rfl⟩ := Prod.mk.inj (Except.ok.inj he)
    exact .positional (by simpa using hlike) (ih hmore)

theorem IsPhrased.words_eq (h : IsPhrased spellings words found ending) :
    words = found.flatMap Phrase.words ++ ending ∧ IsEnding ending := by
  induction h with
  | ending he => exact ⟨rfl, he⟩
  | @option word following ending as used found _ _ _ _ ih =>
    obtain ⟨hwords, he⟩ := ih
    refine ⟨?_, he⟩
    rw [List.flatMap_cons, List.append_assoc, ← hwords]
    simp [Phrase.words]
  | positional _ _ ih =>
    obtain ⟨hwords, he⟩ := ih
    exact ⟨by simp [Phrase.words, ← hwords], he⟩

theorem IsPhrased.exists_ofWord (h : IsPhrased spellings words found ending) {word : Text}
    {values : List Text} {as : List Assignment} (hmem : .option word values as ∈ found) :
    ∃ r, Request.ofWord spellings word = .ok r := by
  induction h with
  | ending _ => simp at hmem
  | option hlike _ hword _ ih =>
    rcases List.mem_cons.mp hmem with he | hmem
    · obtain ⟨rfl, -, -⟩ := Phrase.option.inj he
      rw [optionWord_eq_grant hlike] at hword
      obtain ⟨r, hr, -⟩ := bind_eq_ok.mp hword
      exact ⟨r, hr⟩
    · exact ih hmem
  | positional _ _ ih => exact ih (by simpa using hmem)

theorem IsPhrased.append (h : IsPhrased spellings words found []) {behind : List Text}
    (hb : EndsRun behind) :
    phrases spellings (words ++ behind) =
      phrases spellings behind >>= fun (more, ending) => pure (found ++ more, ending) := by
  generalize hnil : ([] : List Text) = ending at h
  induction h with
  | ending _ =>
    subst hnil
    cases hbehind : phrases spellings behind <;> simp [hbehind]
  | @option word following ending as used found hlike hdashes hword _ ih =>
    have hle := used_le_of_optionWord hlike hword
    rw [List.cons_append, phrases_option hlike hdashes (optionWord_append hlike hword hb),
      List.drop_append_of_le_length hle, List.take_append_of_le_length hle, ih hnil]
    cases phrases spellings behind <;> rfl
  | positional hlike _ ih =>
    rw [List.cons_append, phrases_positional hlike, ih hnil]
    cases phrases spellings behind <;> rfl

/-- What is bound by words that are all consumed comes before what is bound behind them. -/
theorem IsPhrased.scanOptions_append (h : IsPhrased spellings words found []) {behind : List Text}
    (hb : EndsRun behind) :
    scanOptions spellings (words ++ behind) =
      scanOptions spellings behind >>= fun (more, left) =>
        pure (found.flatMap Phrase.assignments ++ more, found.flatMap Phrase.left ++ left) := by
  rw [scanOptions_eq_phrases, scanOptions_eq_phrases, h.append hb]
  cases phrases spellings behind <;> simp

end

end

end Matching

namespace Pattern
open Matching

theorem bind_arguments (p : Pattern) (rest : List Text) :
    p.bind (p.command :: (p.subcommands ++ rest)) =
      scanOptions p.spellings rest >>= fun (assignments, left) => do
        let slices ← allocate p.positionalSlots left
        let positionals := slices.map fun (s, words) =>
          Assignment.put s.variableName (positionalValue s words)
        let b ← completeOptions (Assignment.applyAll [] (assignments ++ positionals)) p.optionSlots
        checkGroups b (groupSlots p.groups (p.slots.drop p.arguments.length))
        return b := by
  rw [bind, if_neg (fun hne => hne rfl), dropSubcommands_append, ok_bind]

end Pattern
end Countermand

import Countermand.Proofs.Pattern.Rendering
import Countermand.Proofs.Pattern.RoundTrip

/-! What can be relied on in every pattern that was read. Its words and names have the characters
that they should, every argument has a variable of its own accord, so that the matching never has
to invent one, and positionals and members of groups are of the kinds that can be matched. -/
namespace Countermand
open Results

namespace Text

inductive InOrder : List Text → Text → Prop
  | none (t : Text) : InOrder [] t
  | next {run rest : Text} {runs : List Text} (gap : Text) : InOrder runs rest →
      InOrder (run :: runs) (gap ++ (run ++ rest))

theorem InOrder.after {runs : List Text} {t : Text} (h : InOrder runs t) (gap : Text) :
    InOrder runs (gap ++ t) := by
  cases h with
  | none => exact .none _
  | next more h =>
    rw [← List.append_assoc]
    exact .next (gap ++ more) h

theorem InOrder.of_trimStart {runs : List Text} {t : Text} (h : InOrder runs (trimStart t)) :
    InOrder runs t := by
  obtain ⟨blanks, -, ht⟩ := exists_blanks_trimStart t
  rw [ht]
  exact h.after blanks

end Text

namespace Specification

theorem readIdentifier_append {t rest : Text}
    (h : ∀ c ∈ rest.head?, isIdentifierCharacter c = false) :
    (readIdentifier (t ++ rest)).1 = (readIdentifier t).1 := by
  have hrest : rest.takeWhile isIdentifierCharacter = [] := by
    cases rest with
    | nil => rfl
    | cons c rest => simp [h c rfl]
  cases t with
  | nil =>
    cases rest with
    | nil => rfl
    | cons c rest =>
      have hc : c.isUpper = false := by
        have := h c rfl
        simp only [isIdentifierCharacter, Bool.or_eq_false_iff] at this
        exact this.1.1
      simp [readIdentifier, hc]
  | cons c t =>
    rw [List.cons_append, readIdentifier, readIdentifier]
    split_ifs
    · rw [List.takeWhile_append, hrest]
      split_ifs with hall
      · rw [List.append_nil, List.takeWhile_prefix _ |>.eq_of_length hall]
      · rfl
    · rfl

end Specification

namespace Argument

/-- The names of options: a letter or digit after a dash, or after two dashes words with dashes
between them, of which the first one has two characters or more. -/
inductive IsName : Text → Prop
  | short {c : Char} : c.isAlphanum = true → IsName ['-', c]
  | long {first : Text} {words : List Text} : 2 ≤ first.length →
      (∀ w ∈ first :: words, w ≠ [] ∧ ∀ c ∈ w, c.isAlphanum = true) →
      IsName ('-' :: '-' :: ['-'].intercalate (first :: words))

theorem isName_of_isSpelling {name : Text} (h : isSpelling name = true) : IsName name := by
  unfold isSpelling at h
  split at h
  · rename_i long
    split at h
    · simp at h
    · rename_i first words hsplit
      simp only [Bool.and_eq_true, decide_eq_true_eq, List.all_eq_true, Text.isAlphanumeric] at h
      obtain ⟨⟨hlength, hfirst⟩, hwords⟩ := h
      rw [← Text.intercalate_splitOn '-' long, hsplit]
      refine .long hlength (List.forall_mem_cons.mpr ⟨⟨?_, hfirst⟩, fun w hw => ?_⟩)
      · exact List.ne_nil_of_length_pos (by omega)
      · simpa using hwords w hw
  · exact .short h
  · simp at h

theorem IsName.exists_alphanum {name : Text} (h : IsName name) :
    ∃ c ∈ name, c.isAlphanum = true := by
  cases h with
  | short hc => exact ⟨_, by simp, hc⟩
  | @long first words _ hwords =>
    obtain ⟨hne, hfirst⟩ := hwords first (by simp)
    obtain ⟨c, rest, rfl⟩ := List.exists_cons_of_ne_nil hne
    refine ⟨c, ?_, hfirst c (by simp)⟩
    cases words <;> simp [List.intercalate]

theorem mem_of_longest? {ts : List Text} {best : Text} (h : longest? ts = some best) :
    best ∈ ts := by
  induction ts generalizing best with
  | nil => simp [longest?] at h
  | cons t ts ih =>
    rw [longest?] at h
    split at h
    · simp_all
    · rename_i other hother
      split_ifs at h
      · simp_all
      · exact List.mem_cons_of_mem t (ih (hother.trans h))

theorem derivedName_ne_nil {spellings : List Text} {x : Text} (hs : ∀ s ∈ spellings, IsName s)
    (h : derivedName spellings = some x) : x ≠ [] := by
  obtain ⟨best, hbest, rfl⟩ := Option.map_eq_some_iff.mp h
  obtain ⟨c, hc, halphanum⟩ := (hs best (mem_of_longest? hbest)).exists_alphanum
  rw [Ne, List.map_eq_nil_iff, List.dropWhile_eq_nil_iff]
  intro hdashes
  obtain rfl : c = '-' := by simpa using hdashes c hc
  exact absurd halphanum (by decide)

theorem identifier_of_readHead {content body names : Text} {head : Option Specification}
    (h : readHead content body = .ok (head, names)) :
    head.bind Specification.identifier = (Specification.readIdentifier body).1 := by
  obtain ⟨⟨spec, rest⟩, hread, h⟩ := bind_eq_ok.mp h
  obtain ⟨⟨q, after⟩, -, he⟩ := bind_eq_ok.mp hread
  obtain ⟨rfl, rfl⟩ := Prod.mk.inj (Except.ok.inj he)
  dsimp only at h
  split at h
  · obtain ⟨rfl, -⟩ := Prod.mk.inj (Except.ok.inj h)
    rfl
  · split_ifs at h with hempty
    · obtain ⟨rfl, -⟩ := Prod.mk.inj (Except.ok.inj h)
      simp only [Specification.isEmpty, Bool.and_eq_true, Option.isNone_iff_eq_none] at hempty
      exact hempty.1.symm
    · obtain ⟨rfl, -⟩ := Prod.mk.inj (Except.ok.inj h)
      rfl
    · simp at h

inductive IsReadFrom (a : Argument) : Text → Prop
  | run {o k : Char} {body : Text} : opens o = true → closes k = true →
      read (o :: (body ++ [k])) = .ok a → IsReadFrom a (o :: (body ++ [k]))

theorem isIdentifierCharacter_bracket {k : Char} (h : closes k = true) :
    Specification.isIdentifierCharacter k = false := by
  simp only [closes, Bool.or_eq_true, beq_iff_eq] at h
  rcases h with rfl | rfl <;> decide

/-- A positional has the identifier right behind its opening bracket. -/
theorem IsReadFrom.variableName {a : Argument} {run : Text} (h : a.IsReadFrom run)
    (hp : a.positional = true) :
    a.variableName = (Specification.readIdentifier run.tail).1 := by
  obtain @⟨o, k, body, ho, hk, hread⟩ := h
  obtain ⟨front, names, given, spec, hr⟩ := exists_reading hread
  have hdelimiter := hr.delimiter_bracketed (by simp [Pattern.isBracket, ho])
    (by simp [Pattern.isBracket, hk])
  obtain ⟨clause, rfl, hclause⟩ := splitDelimiter_sound hdelimiter
  have hend : ∀ c ∈ (clause ++ [k]).head?, Specification.isIdentifierCharacter c = false := by
    generalize a.delimiter = delimiter at hclause
    cases hclause with
    | absent => simpa using isIdentifierCharacter_bracket hk
    | between =>
      intro c hc
      obtain rfl : ':' = c := Option.some.inj hc
      decide
  rw [List.tail_cons, List.append_assoc, Specification.readIdentifier_append hend,
    ← identifier_of_readHead hr.head, hr.variableName, hr.spec_eq hp, hr.positional_iff.mp hp]
  cases given.bind Specification.identifier <;> rfl

structure Reliable (a : Argument) : Prop where
  positional_iff : a.positional = true ↔ a.spellings = []
  names : ∀ name ∈ a.spellings, IsName name
  bound : ∃ x, a.variableName = some x ∧ x ≠ []
  delimiter : ∀ d, a.delimiter = some d → d ≠ [] ∧ ':' ∉ d
  positional : a.positional = true →
    a.required = true ∧ a.quantifier ≠ .flag ∧ a.quantifier ≠ .optional

section
variable {a : Argument}

theorem Accepted.isName (h : a.Accepted) : ∀ name ∈ a.spellings, IsName name :=
  fun name hname => isName_of_isSpelling (h.spelled name hname)

theorem Accepted.variableName_ne_nil (h : a.Accepted) {x : Text} (hx : a.variableName = some x) :
    x ≠ [] := by
  rcases h.identified x hx with hidentifier | hderived
  · exact hidentifier.isCommandWord.1
  · exact derivedName_ne_nil h.isName hderived

theorem Accepted.reliable_named (h : a.Accepted) (place : Nat) : (a.named place).Reliable := by
  have hdelimiter : ∀ d, a.delimiter = some d → d ≠ [] ∧ ':' ∉ d := fun d hd =>
    ⟨(h.delimited d hd).1, (h.delimited d hd).2.1⟩
  have hpositional (hp : a.positional = true) := And.intro (h.necessary hp) (h.counted hp)
  rw [named]
  split_ifs with hp
  · refine ⟨h.positional_iff, h.isName, ⟨_, rfl, ?_⟩, hdelimiter, hpositional⟩
    cases hx : a.variableName with
    | none => exact Text.ofNat_ne_nil place
    | some x => exact h.variableName_ne_nil hx
  · obtain ⟨x, hx⟩ := h.named (by simpa using hp)
    exact ⟨h.positional_iff, h.isName, ⟨x, hx, h.variableName_ne_nil hx⟩, hdelimiter, hpositional⟩

theorem Accepted.reliable (h : a.Accepted) (hp : a.positional = false) : a.Reliable := by
  have hnamed : a.named 0 = a := if_neg (by simp [hp])
  exact hnamed ▸ h.reliable_named 0

end

end Argument

namespace Pattern

/-- Arguments that were read from a text, each from a run in brackets. -/
def AreReadFrom (arguments : List Argument) (t : Text) : Prop :=
  ∃ runs, Text.InOrder runs t ∧ List.Forall₂ Argument.IsReadFrom arguments runs

theorem AreReadFrom.after {arguments : List Argument} {t front rest : Text}
    (h : AreReadFrom arguments rest) (ht : Text.trimStart t = front ++ rest) :
    AreReadFrom arguments t := by
  obtain ⟨runs, hruns, hread⟩ := h
  exact ⟨runs, .of_trimStart (ht ▸ hruns.after front), hread⟩

theorem AreReadFrom.cons {arguments : List Argument} {a : Argument} {t run rest : Text}
    (ha : a.IsReadFrom run) (h : AreReadFrom arguments rest)
    (ht : Text.trimStart t = run ++ rest) : AreReadFrom (a :: arguments) t := by
  obtain ⟨runs, hruns, hread⟩ := h
  exact ⟨run :: runs, .of_trimStart (ht ▸ .next [] hruns), .cons ha hread⟩

theorem areReadFrom_of_readParts {ended : Bool} {t : Text} {parts : List Part}
    (h : readParts ended t = .ok parts) : AreReadFrom (parts.filterMap Part.argument?) t := by
  fun_induction readParts ended t generalizing parts with
  | case1 t =>
    obtain rfl := Except.ok.inj h
    exact ⟨[], .none _, .nil⟩
  | case2 | case4 | case6 | case8 | case9 => simp at h
  | case3 ended t c cs ht hc run rest he ih =>
    obtain ⟨a, ha, h⟩ := bind_eq_ok.mp h
    obtain ⟨more, hmore, heq⟩ := bind_eq_ok.mp h
    obtain rfl := Except.ok.inj heq
    obtain ⟨body, k, rfl, -, hk, -⟩ := exists_of_enclosed_cons hc he
    exact .cons (.run hc hk ha) (ih hmore) (ht.trans (append_of_enclosed he).1)
  | case5 ended t cs run rest ht hc he ih =>
    obtain ⟨g, -, h⟩ := bind_eq_ok.mp h
    obtain ⟨more, hmore, heq⟩ := bind_eq_ok.mp h
    obtain rfl := Except.ok.inj heq
    exact (ih hmore).after (ht.trans (append_of_enclosed he).1)
  | case7 ended t c cs ht hc hp hn run rest he ih =>
    obtain ⟨g, -, h⟩ := bind_eq_ok.mp h
    obtain ⟨more, hmore, heq⟩ := bind_eq_ok.mp h
    obtain rfl := Except.ok.inj heq
    have hcs : c :: cs = (c :: run) ++ rest := congrArg (c :: ·) (append_of_enclosed he).1
    exact (ih hmore).after (ht.trans hcs)
  | case10 =>
    rename_i t c cs ht _ _ _ _ _ _ ih
    obtain ⟨more, hmore, heq⟩ := bind_eq_ok.mp h
    obtain rfl := Except.ok.inj heq
    have hcs : c :: cs = (c :: cs.takeWhile (!Text.isBlank ·)) ++ cs.dropWhile (!Text.isBlank ·) :=
      congrArg (c :: ·) List.takeWhile_append_dropWhile.symm
    exact (ih hmore).after (ht.trans hcs)

/-- The positionals are counted, whether they have an identifier or not. -/
theorem variableName_of_nameOrdinals {place k : Nat} {unnamed : List Argument} {runs : List Text}
    (h : List.Forall₂ Argument.IsReadFrom unnamed runs) {a : Argument} {run : Text}
    (hk : (((nameOrdinals place unnamed).zip runs).filter (·.1.positional))[k]? = some (a, run)) :
    a.variableName =
      some ((Specification.readIdentifier run.tail).1.getD (Text.ofNat (place + k))) := by
  induction h generalizing place k with
  | nil => simp [nameOrdinals] at hk
  | @cons b first unnamed runs hread _ ih =>
    rw [nameOrdinals_cons, List.zip_cons_cons, List.filter_cons] at hk
    by_cases hp : b.positional
    · have hnamed : b.named place =
          { b with variableName := some (b.variableName.getD (Text.ofNat place)) } := if_pos hp
      rw [if_pos hp, hnamed, if_pos hp] at hk
      cases k with
      | zero =>
        rw [List.getElem?_cons_zero] at hk
        obtain ⟨rfl, rfl⟩ := Prod.mk.inj (Option.some.inj hk)
        rw [← hread.variableName hp]
        rfl
      | succ k =>
        rw [List.getElem?_cons_succ] at hk
        rw [ih hk, Nat.add_right_comm, Nat.add_assoc]
    · have hnamed : b.named place = b := if_neg hp
      rw [if_neg hp, hnamed, if_neg hp] at hk
      exact ih hk

theorem mem_nameOrdinals {place : Nat} {unnamed : List Argument} {a : Argument}
    (h : a ∈ nameOrdinals place unnamed) : ∃ b ∈ unnamed, ∃ n, a = b.named n := by
  induction unnamed generalizing place with
  | nil => simp [nameOrdinals] at h
  | cons b unnamed ih =>
    rw [nameOrdinals_cons] at h
    rcases List.mem_cons.mp h with rfl | h
    · exact ⟨b, by simp, place, rfl⟩
    · obtain ⟨c, hc, n, rfl⟩ := ih h
      exact ⟨c, List.mem_cons_of_mem b hc, n, rfl⟩

theorem forall₂_nameOrdinals {place : Nat} {unnamed : List Argument} {runs : List Text}
    (h : List.Forall₂ Argument.IsReadFrom unnamed runs) :
    List.Forall₂ (fun a run => ∃ b n, b.IsReadFrom run ∧ a = Argument.named n b)
      (nameOrdinals place unnamed) runs := by
  induction h generalizing place with
  | nil => exact .nil
  | cons hread _ ih =>
    rw [nameOrdinals_cons]
    exact .cons ⟨_, place, hread, rfl⟩ ih

/-- What can be relied on in a pattern that was read from a text. -/
structure Guarantees (t : Text) (p : Pattern) : Prop where
  words : ∀ w ∈ p.command :: p.subcommands, w ≠ [] ∧ ∀ c ∈ w, isCommandCharacter c = true
  arguments : ∀ a ∈ p.allArguments, a.Reliable
  /-- A positional has its identifier, or else its number among the positionals. -/
  ordinals : ∃ runs, Text.InOrder runs t ∧
    List.Forall₂ (fun a run => ∃ b n, b.IsReadFrom run ∧ a = Argument.named n b) p.arguments runs ∧
    ∀ k a run, ((p.arguments.zip runs).filter (·.1.positional))[k]? = some (a, run) →
      a.variableName = some ((Specification.readIdentifier run.tail).1.getD (Text.ofNat k))
  groups : ∀ g ∈ p.groups,
    g.members ≠ [] ∧ ∀ a ∈ g.members, a.positional = false ∧ a.required = false
  /-- No variable is made up when command lines are matched. -/
  slots : ∀ s ∈ p.slots, s.argument.variableName = some s.variableName

/-- Every pattern that is accepted is well formed. -/
theorem guarantees_of_read {t : Text} {p : Pattern} (h : read t = .ok p) : p.Guarantees t := by
  obtain ⟨words, -, groups⟩ := accepted_of_read h
  obtain ⟨parts, hparts, h⟩ := bind_eq_ok.mp h
  have haccepted := accepted_of_readParts hparts
  obtain ⟨runs, hruns, hread⟩ := areReadFrom_of_readParts hparts
  split at h
  · simp at h
  rename_i command subcommands hwords
  have hreliable : ∀ a ∈ p.allArguments, a.Reliable := by
    obtain rfl := Except.ok.inj h
    intro a ha
    rcases List.mem_append.mp ha with ha | ha
    · obtain ⟨b, hb, n, rfl⟩ := mem_nameOrdinals ha
      exact (show b.Accepted from haccepted _ (Part.argument_mem hb)).reliable_named n
    · obtain ⟨g, hg, ha⟩ := List.mem_flatMap.mp ha
      obtain ⟨hmember, hoption, -⟩ := (groups g hg).members a ha
      exact hmember.reliable hoption
  refine ⟨words, hreliable, ⟨runs, hruns, ?_⟩, fun g hg => ?_, fun s hs => ?_⟩
  · obtain rfl := Except.ok.inj h
    refine ⟨forall₂_nameOrdinals hread, fun k a run hk => ?_⟩
    rw [variableName_of_nameOrdinals hread hk, Nat.zero_add]
  · exact ⟨(groups g hg).inhabited, fun a ha => ((groups g hg).members a ha).2⟩
  · obtain ⟨x, hx, -⟩ :=
      (hreliable s.argument (map_argument_slots p ▸ List.mem_map_of_mem hs)).bound
    rw [hx, Slot.variableName_of_mem_assign hs hx]

def copier : Pattern where
  command := "cp".toList
  subcommands := []
  arguments := [⟨some "SOURCES".toList, .atLeastOne, [], true, true, some [',']⟩,
    ⟨some "NO_CLOBBER".toList, .flag, ["-n".toList, "--no-clobber".toList], false, false, none⟩,
    ⟨some "1".toList, .exactly 1, [], true, true, none⟩]
  groups := [⟨true, [⟨some "Q".toList, .flag, ["-q".toList], false, false, none⟩]⟩]

theorem guarantees_of_read_copier :
    read "cp <SOURCES...:,:> [?:-n|--no-clobber] <> !([?:-q])".toList = .ok copier ∧
      copier.Guarantees "cp <SOURCES...:,:> [?:-n|--no-clobber] <> !([?:-q])".toList := by
  have hread : read "cp <SOURCES...:,:> [?:-n|--no-clobber] <> !([?:-q])".toList = .ok copier := by
    cbv
  exact ⟨hread, guarantees_of_read hread⟩

end Pattern
end Countermand

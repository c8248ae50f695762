import Countermand.Pattern.Matching
import Countermand.Pattern.Reading
import Countermand.Proofs.Pattern.Brackets
import Countermand.Proofs.Results
import Countermand.Proofs.Text.Characters

/-! Patterns of one command word and one required positional: how they are read, and what they
bind. -/
namespace Countermand
open Results

namespace Pattern

def IsCommandWord (w : Text) : Prop := w ≠ [] ∧ ∀ c ∈ w, isCommandCharacter c = true

instance (w : Text) : Decidable (IsCommandWord w) :=
  have := List.decidableBAll (fun c => isCommandCharacter c = true) w
  inferInstanceAs (Decidable (_ ∧ _))

theorem toNat_of_isCommandCharacter {c : Char} (h : isCommandCharacter c = true) :
    43 ≤ c.toNat ∧ c.toNat ≤ 122 := by
  simp only [isCommandCharacter, Bool.or_eq_true, beq_iff_eq] at h
  rcases h with (((h | rfl) | rfl) | rfl) | rfl
  · have := Text.toNat_of_isAlphanum h
    omega
  all_goals decide

theorem isBlank_of_isCommandCharacter {c : Char} (h : isCommandCharacter c = true) :
    Text.isBlank c = false :=
  Text.isBlank_of_toNat (by have := toNat_of_isCommandCharacter h; omega)

theorem ne_of_isCommandCharacter {c d : Char} (h : isCommandCharacter c = true)
    (hd : isCommandCharacter d = false) : c ≠ d := by
  rintro rfl
  exact Bool.false_ne_true (hd.symm.trans h)

theorem IsCommandWord.trimStart {w : Text} (h : IsCommandWord w) (rest : Text) :
    Text.trimStart (w ++ rest) = w ++ rest := by
  cases w with
  | nil => exact absurd rfl h.1
  | cons c w =>
    exact Text.trimStart_eq_self (by simpa using isBlank_of_isCommandCharacter (h.2 c (by simp)))

theorem readParts_word {t w rest : Text} (ht : Text.trimStart t = w ++ rest) (h : IsCommandWord w)
    (hr : ∀ c ∈ rest.head?, Text.isBlank c = true) :
    readParts false t = readParts false rest >>= fun parts => pure (.word w :: parts) := by
  cases w with
  | nil => exact absurd rfl h.1
  | cons c w =>
    have hc : isCommandCharacter c = true := h.2 c (by simp)
    have hw : ∀ d ∈ w, (!Text.isBlank d) = true := fun d hd => by
      rw [isBlank_of_isCommandCharacter (h.2 d (List.mem_cons_of_mem c hd))]
      rfl
    have hblank : ∀ d ∈ rest.head?, (!Text.isBlank d) = false := fun d hd => by rw [hr d hd]; rfl
    have hopens : Argument.opens c = false := by
      simp [Argument.opens, ne_of_isCommandCharacter hc (d := '[') (by decide),
        ne_of_isCommandCharacter hc (d := '<') (by decide)]
    have hall : ((c :: w).all isCommandCharacter) = true := List.all_eq_true.mpr h.2
    rw [readParts]
    split
    · rename_i hnil
      exact absurd (ht.symm.trans hnil) (by simp)
    · rename_i d ds hcons
      rw [ht, List.cons_append, List.cons.injEq] at hcons
      obtain ⟨rfl, rfl⟩ := hcons
      have hparen := ne_of_isCommandCharacter hc (d := '(') (by decide)
      have hmark := ne_of_isCommandCharacter hc (d := '!') (by decide)
      rw [if_neg (by simp [hopens]), if_neg hparen, if_neg (fun h => hmark h.1),
        Text.takeWhile_exact hw hblank, Text.dropWhile_exact hw hblank]
      simp [hall]

/-- An argument behind blanks is read on its own if its brackets belong together. -/
theorem readParts_argument {ended : Bool} {t body rest : Text} {o k : Char} {a : Argument}
    (ht : Text.trimStart t = o :: (body ++ k :: rest)) (ho : Argument.opens o = true)
    (hopen : Argument.opens k = false) (hclose : Argument.closes k = true)
    (hd : depthAfter Argument.opens Argument.closes 1 body = some 1)
    (ha : Argument.read (o :: (body ++ [k])) = .ok a) :
    readParts ended t = readParts true rest >>= fun parts => pure (.argument a :: parts) := by
  have hrun := enclosed_cons ho hopen hclose hd rest
  rw [readParts]
  split
  · rename_i hnil
    exact absurd (ht.symm.trans hnil) (by simp)
  · rename_i c cs hcons
    obtain ⟨rfl, rfl⟩ := List.cons.inj (ht.symm.trans hcons)
    rw [if_pos ho]
    split
    · rename_i he
      exact absurd (hrun.symm.trans he) (by simp)
    · rename_i run after he
      obtain ⟨rfl, rfl⟩ := Prod.mk.inj (Option.some.inj (hrun.symm.trans he))
      rw [ha, ok_bind]

theorem readParts_nil (ended : Bool) : readParts ended [] = .ok [] := by
  rw [readParts]
  rfl

end Pattern

namespace Specification

def IsIdentifier (name : Text) : Prop :=
  name.head?.any Char.isUpper = true ∧ ∀ c ∈ name, isIdentifierCharacter c = true

instance (name : Text) : Decidable (IsIdentifier name) :=
  have := List.decidableBAll (fun c => isIdentifierCharacter c = true) name
  inferInstanceAs (Decidable (_ ∧ _))

variable {name : Text}

theorem isCommandCharacter_of_isIdentifierCharacter {c : Char}
    (h : isIdentifierCharacter c = true) : Pattern.isCommandCharacter c = true := by
  simp only [isIdentifierCharacter, Bool.or_eq_true] at h
  rcases h with (h | h) | h <;>
    simp [Pattern.isCommandCharacter, Char.isAlphanum, Char.isAlpha, h]

theorem IsIdentifier.isCommandWord (h : IsIdentifier name) : Pattern.IsCommandWord name := by
  refine ⟨?_, fun c hc => isCommandCharacter_of_isIdentifierCharacter (h.2 c hc)⟩
  rintro rfl
  simp [IsIdentifier] at h

theorem IsIdentifier.read (h : IsIdentifier name) : read name = .ok (⟨some name, none⟩, []) := by
  cases name with
  | nil => simp [IsIdentifier] at h
  | cons c cs =>
    have hc : c.isUpper = true := by simpa using h.1
    have hcs : ∀ d ∈ cs, isIdentifierCharacter d = true :=
      fun d hd => h.2 d (List.mem_cons_of_mem c hd)
    have htake : cs.takeWhile isIdentifierCharacter = cs := List.takeWhile_eq_self_iff.mpr hcs
    have hdrop : cs.dropWhile isIdentifierCharacter = [] := List.dropWhile_eq_nil_iff.mpr hcs
    simp [Specification.read, readIdentifier, hc, htake, hdrop, readQuantifier]

end Specification

namespace Argument

def single (name : Text) : Argument := ⟨some name, .exactly 1, [], true, true, none⟩

theorem splitDelimiter_of_getLast? {body : Text}
    (h : ∀ c ∈ body.getLast?, Text.isBlank c = false ∧ c ≠ ':') :
    splitDelimiter body = .ok (body, none) := by
  have htrim : Text.trimEnd body = body := Text.trimEnd_eq_self fun c hc => (h c hc).1
  have hcolon : Text.before? [':'] body = none := by
    have hprefix : List.isPrefixOf [':'] body.reverse = false := by
      cases hr : body.reverse with
      | nil => rfl
      | cons c cs =>
        have hc := (h c (by rw [← List.head?_reverse, hr]; rfl)).2
        simp [List.isPrefixOf, hc.symm]
    simp [Text.before?, Text.after?, hprefix]
  rw [splitDelimiter, htrim, hcolon]
  rfl

theorem splitDelimiter_isIdentifier {name : Text} (h : Specification.IsIdentifier name) :
    splitDelimiter name = .ok (name, none) := by
  refine splitDelimiter_of_getLast? fun c hc => ?_
  have hword := h.isCommandWord.2 c (List.mem_of_getLast? hc)
  exact ⟨Pattern.isBlank_of_isCommandCharacter hword,
    Pattern.ne_of_isCommandCharacter hword (by decide)⟩

theorem read_single {name : Text} (h : Specification.IsIdentifier name) :
    read ('<' :: (name ++ ['>'])) = .ok (single name) := by
  have htrim : Text.trim ('<' :: (name ++ ['>'])) = '<' :: (name ++ ['>']) := by
    refine Text.trim_eq_self ?_ ?_
    · simp [Text.isBlank]
    · rw [← List.cons_append, List.getLast?_concat]
      simp [Text.isBlank]
  have hbrackets : readBrackets ('<' :: (name ++ ['>'])) = .ok true := by
    rw [readBrackets, ← List.cons_append, List.getLast?_concat]
    rfl
  have hbody : ('<' :: (name ++ ['>'])).tail.dropLast = name := by simp
  have hhead : readHead ('<' :: (name ++ ['>'])) name = .ok (some ⟨some name, none⟩, []) := by
    rw [readHead, h.read]
    rfl
  rw [read, htrim, hbrackets, hbody, ok_bind, splitDelimiter_isIdentifier h, ok_bind]
  dsimp only
  rw [hhead]
  rfl

end Argument

namespace Pattern
open Matching

def capturing (command name : Text) : Pattern := ⟨command, [], [.single name], []⟩

theorem readParts_single {name : Text} (h : Specification.IsIdentifier name) :
    readParts false (' ' :: '<' :: (name ++ ['>'])) = .ok [.argument (.single name)] := by
  have htrim : Text.trimStart (' ' :: '<' :: (name ++ ['>'])) = '<' :: (name ++ ['>']) := rfl
  have hname : ∀ c ∈ name, Argument.opens c = false ∧ Argument.closes c = false := by
    intro c hc
    have hw := h.isCommandWord.2 c hc
    have bracket (d : Char) (hd : isCommandCharacter d = false) : (c == d) = false :=
      beq_eq_false_iff_ne.mpr (ne_of_isCommandCharacter hw hd)
    simp [Argument.opens, Argument.closes, bracket '[' (by decide), bracket '<' (by decide),
      bracket ']' (by decide), bracket '>' (by decide)]
  rw [readParts_argument htrim (by decide) (by decide) (by decide) (depthAfter_unbracketed hname 1)
    (Argument.read_single h), readParts_nil]
  rfl

theorem read_capturing {command name : Text} (hc : IsCommandWord command)
    (hn : Specification.IsIdentifier name) :
    read (command ++ " <".toList ++ name ++ ">".toList) = .ok (capturing command name) := by
  have htext : command ++ " <".toList ++ name ++ ">".toList =
      command ++ ' ' :: '<' :: (name ++ ['>']) := by simp
  rw [read, htext, readParts_word (hc.trimStart _) hc (by simp [Text.isBlank]),
    readParts_single hn]
  rfl

/-- A value that does not look like an option is bound as it is. -/
theorem bind_capturing {command name value : Text} (h : isOptionLike value = false) :
    (capturing command name).bind [command, value] = .ok [(name, .text value)] := by
  have hdashes : value ≠ "--".toList := by
    rintro rfl
    exact absurd h (by decide)
  have hscan : ∀ spellings, scanOptions spellings [value] = .ok ([], [value]) := by
    intro spellings
    have hnil : scanOptions spellings [] = .ok ([], []) := by rw [scanOptions]
    rw [scanOptions, if_neg hdashes, if_neg (by simp [h]), hnil]
    rfl
  have hcommand : ¬command ≠ (capturing command name).command := fun hne => hne rfl
  have hsubcommands : dropSubcommands (capturing command name).subcommands [value] =
      .ok [value] := rfl
  rw [bind, if_neg hcommand, hsubcommands, ok_bind, hscan]
  rfl

end Pattern
end Countermand

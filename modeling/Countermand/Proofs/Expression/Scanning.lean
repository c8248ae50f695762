import Countermand.Expression.Token
import Countermand.Proofs.Results
import Countermand.Proofs.Text.Characters

/-! Scanning and writing tokens. A text that is scanned is nothing but the spellings of its tokens
with blanks around them, spaced spellings are scanned again as they were written, and a text that
cannot be scanned is readable up to the place of the error. -/
namespace Countermand
open Results

namespace Lexeme

/-- The body of a string: each quote of its own kind comes right after a backslash, and no backslash
stands last. -/
def IsStringBody (quote : Char) (body : Text) : Prop :=
  (∀ before after, body = before ++ quote :: after → before.getLast? = some '\\') ∧
    body.getLast? ≠ some '\\'

/-- A token with the body that its kind asks for. -/
def IsValid : Lexeme → Prop
  | .word name => name.head?.any Char.isAlphanum = true ∧
      (∀ c ∈ name, Token.isWordCharacter c = true) ∧
      (∀ op : Operation, name ≠ op.name) ∧ ∀ k : Check, name ≠ k.name
  | .literal body => IsStringBody '\x27' body
  | .quoted body => IsStringBody '"' body
  | _ => True

/-- A word or the name of a call would swallow a letter behind it. -/
def Precedes (x : Lexeme) (rest : Text) : Prop :=
  x.kind = .word ∨ x.kind = .call → ∀ c ∈ rest.head?, Token.isWordCharacter c = false

end Lexeme

namespace Token
open Lexeme

def Closes (quote before : Char) (body : Text) : Prop :=
  (∀ left right, body = left ++ quote :: right → (before :: left).getLast? = some '\\') ∧
    (before :: body).getLast? ≠ some '\\'

theorem closes_cons {quote before c : Char} {body : Text} :
    Closes quote before (c :: body) ↔ (c = quote → before = '\\') ∧ Closes quote c body := by
  constructor
  · rintro ⟨hq, hl⟩
    refine ⟨fun hc => ?_, fun left right h => ?_, by simpa using hl⟩
    · simpa using hq [] body (by rw [hc]; rfl)
    · simpa using hq (c :: left) right (by rw [h]; rfl)
  · rintro ⟨hc, hq, hl⟩
    refine ⟨fun left right h => ?_, by simpa using hl⟩
    cases left with
    | nil => simpa using hc (List.cons.inj h).1
    | cons d left =>
      obtain ⟨rfl, rfl⟩ := List.cons.inj h
      simpa using hq left right rfl

theorem closes_quote {quote : Char} (hq : quote ≠ '\\') {body : Text} :
    Closes quote quote body ↔ IsStringBody quote body := by
  have hlast : ∀ t : Text, (quote :: t).getLast? = some '\\' ↔ t.getLast? = some '\\' := by
    intro t
    cases t <;> simp [hq]
  simp only [Closes, IsStringBody, hlast, ne_eq]

theorem closeQuote_eq_some {quote before : Char} {t body rest : Text} :
    closeQuote quote before t = some (body, rest) ↔
      t = body ++ quote :: rest ∧ Closes quote before body := by
  constructor
  · intro h
    refine ⟨append_of_closeQuote h, ?_⟩
    induction t generalizing before body with
    | nil => simp [closeQuote] at h
    | cons c cs ih =>
      simp only [closeQuote] at h
      split at h
      · rename_i hc
        obtain ⟨rfl, -⟩ := Prod.mk.inj (Option.some.inj h)
        simpa [Closes] using hc.2
      · rename_i hc
        obtain ⟨⟨b, r⟩, hb, he⟩ := Option.map_eq_some_iff.mp h
        obtain ⟨rfl, rfl⟩ := Prod.mk.inj he
        exact closes_cons.mpr ⟨by simpa using hc, ih hb⟩
  · rintro ⟨rfl, h⟩
    induction body generalizing before with
    | nil =>
      have hb : before ≠ '\\' := by simpa using h.2
      simp [closeQuote, hb]
    | cons c body ih =>
      obtain ⟨hc, hbody⟩ := closes_cons.mp h
      have hopen : ¬(c = quote ∧ before ≠ '\\') := fun hn => hn.2 (hc hn.1)
      rw [List.cons_append, closeQuote, if_neg hopen, ih hbody]
      rfl

theorem isWordCharacter_of_isAlphanum {c : Char} (h : c.isAlphanum = true) :
    isWordCharacter c = true := by
  simp [isWordCharacter, h]

theorem lexeme?_run {name rest : Text} (ha : name.head?.any Char.isAlphanum = true)
    (hn : ∀ c ∈ name, isWordCharacter c = true)
    (hr : ∀ c ∈ rest.head?, isWordCharacter c = false) :
    lexeme? (name ++ rest) = some (ofWord name, rest) := by
  cases name with
  | nil => simp at ha
  | cons c cs =>
    have hc : c.isAlphanum = true := by simpa using ha
    have hquote (d : Char) (hd : d.isAlphanum = false) : c ≠ d := by
      rintro rfl
      simp [hd] at hc
    have hcs : ∀ d ∈ cs, isWordCharacter d = true := fun d hd => hn d (List.mem_cons_of_mem c hd)
    rw [List.cons_append, lexeme?, if_neg (hquote '"' (by decide)),
      if_neg (hquote '\x27' (by decide)), if_pos hc, Text.takeWhile_exact hcs hr,
      Text.dropWhile_exact hcs hr]

theorem ofName?_checkName (k : Check) : Operation.ofName? k.name = none := by
  cases k <;> decide

theorem ofWord_name {name : Text} (hop : ∀ op : Operation, name ≠ op.name)
    (hk : ∀ k : Check, name ≠ k.name) : ofWord name = .word name := by
  have ho : Operation.ofName? name = none := by
    cases h : Operation.ofName? name with
    | none => rfl
    | some op => exact absurd (Operation.name_of_ofName? h).symm (hop op)
  have hc : Check.ofName? name = none := by
    cases h : Check.ofName? name with
    | none => rfl
    | some k => exact absurd (Check.name_of_ofName? h).symm (hk k)
  rw [ofWord, ho, hc]

theorem lexeme?_spelling {x : Lexeme} (hx : x.IsValid) {rest : Text} (hr : x.Precedes rest) :
    lexeme? (x.spelling ++ rest) = some (x, rest) := by
  cases x with
  | word name =>
    obtain ⟨ha, hn, hop, hk⟩ := hx
    rw [← ofWord_name hop hk]
    simpa using lexeme?_run ha hn (hr (.inl rfl))
  | operation op =>
    have ha : op.name.head?.any Char.isAlphanum = true := by cases op <;> decide
    have hn : op.name.all isWordCharacter = true := by cases op <;> decide
    have hword : ofWord op.name = .operation op := by rw [ofWord, Operation.ofName?_name]
    rw [← hword]
    simpa using lexeme?_run ha (List.all_eq_true.mp hn) (hr (.inr rfl))
  | check k =>
    have ha : k.name.head?.any Char.isAlphanum = true := by cases k <;> decide
    have hn : k.name.all isWordCharacter = true := by cases k <;> decide
    have hword : ofWord k.name = .check k := by
      rw [ofWord, ofName?_checkName, Check.ofName?_name]
    rw [← hword]
    simpa using lexeme?_run ha (List.all_eq_true.mp hn) (hr (.inr rfl))
  | literal body =>
    have hclose : closeQuote '\x27' '\x27' (body ++ '\x27' :: rest) = some (body, rest) :=
      closeQuote_eq_some.mpr ⟨rfl, (closes_quote (by decide)).mpr hx⟩
    simp [spelling, lexeme?, hclose]
  | quoted body =>
    have hclose : closeQuote '"' '"' (body ++ '"' :: rest) = some (body, rest) :=
      closeQuote_eq_some.mpr ⟨rfl, (closes_quote (by decide)).mpr hx⟩
    simp [spelling, lexeme?, hclose]
  | dollar | ellipsis | comma | openParen | closeParen | and | or | not | question | colon => rfl

theorem isValid_ofWord {name : Text} (ha : name.head?.any Char.isAlphanum = true)
    (hn : ∀ c ∈ name, isWordCharacter c = true) : (ofWord name).IsValid := by
  unfold ofWord
  split
  · trivial
  · rename_i ho
    split
    · trivial
    · rename_i hk
      refine ⟨ha, hn, ?_, ?_⟩
      · rintro op rfl
        simp at ho
      · rintro k rfl
        simp at hk

theorem valid_of_symbol? {t rest : Text} {x : Lexeme} (h : symbol? t = some (x, rest)) :
    x.IsValid ∧ x.Precedes rest := by
  unfold symbol? at h
  split at h <;> simp only [Option.some.injEq, Prod.mk.injEq, reduceCtorEq] at h
  all_goals (obtain ⟨rfl, rfl⟩ := h; simp [IsValid, Precedes, kind])

/-- Only valid tokens are read, and words are read as far as they go. -/
theorem valid_of_lexeme? {t rest : Text} {x : Lexeme} (h : lexeme? t = some (x, rest)) :
    x.IsValid ∧ x.Precedes rest := by
  have string {quote c : Char} {cs body rest : Text} (hq : quote ≠ '\\') (hc : c = quote)
      (hb : closeQuote quote c cs = some (body, rest)) : IsStringBody quote body := by
    subst hc
    exact (closes_quote hq).mp (closeQuote_eq_some.mp hb).2
  cases t with
  | nil => simp [lexeme?] at h
  | cons c cs =>
    simp only [lexeme?] at h
    split_ifs at h with hd hs ha
    · obtain ⟨⟨b, r⟩, hb, he⟩ := Option.map_eq_some_iff.mp h
      obtain ⟨rfl, rfl⟩ := Prod.mk.inj he
      exact ⟨string (by decide) hd (by rwa [hd] at hb ⊢), by simp [Precedes, kind]⟩
    · obtain ⟨⟨b, r⟩, hb, he⟩ := Option.map_eq_some_iff.mp h
      obtain ⟨rfl, rfl⟩ := Prod.mk.inj he
      exact ⟨string (by decide) hs (by rwa [hs] at hb ⊢), by simp [Precedes, kind]⟩
    · obtain ⟨rfl, rfl⟩ := Prod.mk.inj (Option.some.inj h)
      refine ⟨isValid_ofWord (by simpa using ha) ?_, fun _ d hd => ?_⟩
      · intro d hd
        rcases List.mem_cons.mp hd with rfl | hd
        · exact isWordCharacter_of_isAlphanum ha
        · exact (List.mem_takeWhile_imp hd)
      · have hnot := List.head?_dropWhile_not isWordCharacter cs
        rw [Option.mem_def.mp hd] at hnot
        exact hnot
    · exact valid_of_symbol? h

theorem isBlank_of_head?_spelling {x : Lexeme} (hx : x.IsValid) :
    ∀ c ∈ x.spelling.head?, Text.isBlank c = false := by
  have head {c d : Char} {cs : Text} (hd : Text.isBlank d = false)
      (hc : c ∈ (d :: cs).head?) : Text.isBlank c = false := by
    obtain rfl : d = c := by simpa using hc
    exact hd
  intro c hc
  cases x with
  | word name =>
    have ha : name.head?.any Char.isAlphanum = true := hx.1
    have hc : name.head? = some c := hc
    rw [hc] at ha
    exact Text.isBlank_of_isAlphanum ha
  | operation op => cases op <;> exact head (by decide) hc
  | check k => cases k <;> exact head (by decide) hc
  | literal body | quoted body => exact head (by decide) hc
  | dollar | ellipsis | comma | openParen | closeParen | and | or | not | question | colon =>
    exact head (by decide) hc

theorem precedes_of_blank {rest : Text} (h : ∀ c ∈ rest.head?, Text.isBlank c = true) (x : Lexeme) :
    x.Precedes rest := by
  intro _ c hc
  cases hw : isWordCharacter c with
  | false => rfl
  | true =>
    have hnot : Text.isBlank c = false := by
      simp only [isWordCharacter, Bool.or_eq_true, beq_iff_eq] at hw
      rcases hw with ha | rfl
      · exact Text.isBlank_of_isAlphanum ha
      · decide
    exact absurd (h c hc) (by simp [hnot])

theorem scan_nil (column : Nat) : scan column [] = .ok [] := by
  rw [scan.eq_def]

theorem scan_cons {column : Nat} {c : Char} {cs rest : Text} {x : Lexeme}
    (hc : Text.isBlank c = false) (hx : lexeme? (c :: cs) = some (x, rest)) :
    scan column (c :: cs) =
      scan (column + x.spelling.length) rest >>= fun tokens => pure (⟨x, column⟩ :: tokens) := by
  rw [scan.eq_def]
  dsimp only
  rw [if_neg (by simp [hc])]
  split
  · rename_i h
    exact absurd (hx.symm.trans h) (by simp)
  · rename_i y after h
    obtain ⟨rfl, rfl⟩ := Prod.mk.inj (Option.some.inj (hx.symm.trans h))
    rfl

theorem scan_blanks {gap : Text} (h : ∀ c ∈ gap, Text.isBlank c = true) (column : Nat) (t : Text) :
    scan column (gap ++ t) = scan (column + gap.length) t := by
  induction gap generalizing column with
  | nil => rfl
  | cons c gap ih =>
    rw [List.cons_append, scan.eq_def]
    dsimp only
    rw [if_pos (h c (by simp)), ih fun d hd => h d (List.mem_cons_of_mem c hd), List.length_cons,
      Nat.add_assoc, Nat.add_comm 1]

theorem scan_spelling {x : Lexeme} (hx : x.IsValid) {rest : Text} (hr : x.Precedes rest)
    (column : Nat) :
    scan column (x.spelling ++ rest) =
      scan (column + x.spelling.length) rest >>= fun tokens => pure (⟨x, column⟩ :: tokens) := by
  have hlex := lexeme?_spelling hx hr
  have hblank := isBlank_of_head?_spelling hx
  obtain ⟨c, cs, hs⟩ := List.exists_cons_of_ne_nil (spelling_append_of_lexeme? hlex).2
  rw [hs] at hblank
  rw [hs, List.cons_append] at hlex
  have h : scan column (c :: (cs ++ rest)) = _ := scan_cons (hblank c rfl) hlex
  rwa [hs, List.cons_append, ← hs]

/-- Tokens to be written, each with what stands in front of it. -/
abbrev Layout := List (Text × Lexeme)

namespace Layout

def text (last : Text) : Layout → Text
  | [] => last
  | (gap, x) :: layout => gap ++ x.spelling ++ text last layout

/-- The tokens where they stand behind an earlier text: the column of a token is one more than the
number of characters before its spelling. -/
def tokens (before : Text) : Layout → List Token
  | [] => []
  | (gap, x) :: layout =>
    ⟨x, (before ++ gap).length + 1⟩ :: tokens (before ++ gap ++ x.spelling) layout

/-- Valid tokens with nothing but blanks in front of each. -/
def IsBlank (layout : Layout) : Prop :=
  ∀ entry ∈ layout, (∀ c ∈ entry.1, Text.isBlank c = true) ∧ entry.2.IsValid

/-- Every token but the first is set apart from the one before. -/
def IsSpaced (layout : Layout) : Prop := ∀ entry ∈ layout.tail, entry.1 ≠ []

theorem IsSpaced.tail {entry : Text × Lexeme} {layout : Layout}
    (h : IsSpaced (entry :: layout)) : layout.IsSpaced :=
  fun e he => h e (List.mem_of_mem_tail he)

theorem IsBlank.tail {entry : Text × Lexeme} {layout : Layout}
    (h : IsBlank (entry :: layout)) : layout.IsBlank :=
  fun e he => h e (List.mem_cons_of_mem entry he)

end Layout

/-- A text that is scanned is made of the spellings of its tokens, with blanks in front of each and
behind the last. -/
theorem exists_layout_of_scan {before t : Text} {column : Nat} {ts : List Token}
    (hcolumn : column = before.length + 1) (h : scan column t = .ok ts) :
    ∃ (layout : Layout) (last : Text), t = layout.text last ∧ ts = layout.tokens before ∧
      layout.IsBlank ∧ ∀ c ∈ last, Text.isBlank c = true := by
  fun_induction scan column t generalizing before ts with
  | case1 =>
    obtain rfl := Except.ok.inj h
    exact ⟨[], [], rfl, rfl, by simp [Layout.IsBlank], by simp⟩
  | case2 column c cs hc ih =>
    have hnext : column + 1 = (before ++ [c]).length + 1 := by simp [hcolumn]
    obtain ⟨layout, last, rfl, rfl, hblank, hlast⟩ := ih hnext h
    -- the blank belongs to the gap in front of the next token, or to the end of the text
    cases layout with
    | nil => exact ⟨[], c :: last, rfl, rfl, hblank, by simpa using ⟨hc, hlast⟩⟩
    | cons entry layout =>
      obtain ⟨gap, x⟩ := entry
      refine ⟨(c :: gap, x) :: layout, last, rfl, by simp [Layout.tokens], ?_, hlast⟩
      intro entry he
      rcases List.mem_cons.mp he with rfl | he
      · have hfirst := hblank (gap, x) (by simp)
        exact ⟨by simpa using ⟨hc, hfirst.1⟩, hfirst.2⟩
      · exact hblank.tail entry he
  | case3 => simp at h
  | case4 column c cs hc x rest hx ih =>
    obtain ⟨more, hmore, he⟩ := bind_eq_ok.mp h
    obtain rfl := Except.ok.inj he
    have hnext : column + x.spelling.length = (before ++ x.spelling).length + 1 := by
      simp only [List.length_append]
      omega
    obtain ⟨layout, last, rfl, rfl, hblank, hlast⟩ := ih hnext hmore
    refine ⟨([], x) :: layout, last, (spelling_append_of_lexeme? hx).1, ?_, ?_, hlast⟩
    · simp [Layout.tokens, hcolumn]
    · intro entry he
      rcases List.mem_cons.mp he with rfl | he
      · exact ⟨by simp, (valid_of_lexeme? hx).1⟩
      · exact hblank entry he

theorem scan_text {layout : Layout} {last : Text} (hblank : layout.IsBlank)
    (hspaced : layout.IsSpaced) (hlast : ∀ c ∈ last, Text.isBlank c = true) (before : Text) :
    scan (before.length + 1) (layout.text last) = .ok (layout.tokens before) := by
  induction layout generalizing before with
  | nil =>
    have h := scan_blanks hlast (before.length + 1) []
    rwa [List.append_nil, scan_nil] at h
  | cons entry layout ih =>
    obtain ⟨gap, x⟩ := entry
    obtain ⟨hgap, hx⟩ := hblank (gap, x) (by simp)
    have hbehind : ∀ c ∈ (Layout.text last layout).head?, Text.isBlank c = true := by
      cases layout with
      | nil => exact fun c hc => hlast c (List.mem_of_mem_head? hc)
      | cons next layout =>
        obtain ⟨c, cs, hg⟩ := List.exists_cons_of_ne_nil (hspaced next (by simp))
        have hnext := (hblank next (by simp)).1 c (by simp [hg])
        intro d hd
        obtain rfl : c = d := by simpa [Layout.text, hg] using hd
        exact hnext
    have hrest := ih hblank.tail hspaced.tail (before ++ gap ++ x.spelling)
    have hcolumn : before.length + 1 + gap.length + x.spelling.length =
        (before ++ gap ++ x.spelling).length + 1 := by
      simp only [List.length_append]
      omega
    rw [Layout.text, List.append_assoc, scan_blanks hgap,
      scan_spelling hx (precedes_of_blank hbehind x), hcolumn, hrest]
    simp only [Layout.tokens, ok_bind, pure_eq_ok, List.length_append]
    rw [Nat.add_right_comm]

theorem exists_of_scan_eq_error {column : Nat} {t : Text} {e : TokenError}
    (h : scan column t = .error e) :
    ∃ done c rest, t = done ++ c :: rest ∧ e = ⟨unreadable (c :: rest), column + done.length⟩ ∧
      Text.isBlank c = false ∧ lexeme? (c :: rest) = none ∧ ∃ ts, scan column done = .ok ts := by
  fun_induction scan column t with
  | case1 => simp at h
  | case2 column c cs hc ih =>
    obtain ⟨done, d, rest, rfl, rfl, hd, hlex, ts, hts⟩ := ih h
    have hblank : scan column ([c] ++ done) = scan (column + 1) done :=
      scan_blanks (by simpa using hc) column done
    refine ⟨c :: done, d, rest, rfl, by simp [Nat.add_comm, Nat.add_left_comm], hd, hlex, ts, ?_⟩
    rw [← List.singleton_append, hblank, hts]
  | case3 column c cs hc hlex =>
    obtain rfl := Except.error.inj h
    exact ⟨[], c, cs, rfl, rfl, by simpa using hc, hlex, [], scan_nil column⟩
  | case4 column c cs hc x rest hx ih =>
    have hfail : scan (column + x.spelling.length) rest = .error e := by
      cases hs : scan (column + x.spelling.length) rest with
      | error fault => rw [hs] at h; exact h
      | ok more => rw [hs] at h; simp at h
    obtain ⟨done, d, after, rfl, rfl, hd, hlex, ts, hts⟩ := ih hfail
    obtain ⟨hvalid, hprecedes⟩ := valid_of_lexeme? hx
    have hdone : x.Precedes done := by
      intro hk c hc
      refine hprecedes hk c ?_
      rw [List.head?_append, Option.mem_def.mp hc]
      rfl
    refine ⟨x.spelling ++ done, d, after, ?_, by simp [Nat.add_assoc], hd, hlex,
      ⟨x, column⟩ :: ts, ?_⟩
    · rw [(spelling_append_of_lexeme? hx).1, List.append_assoc]
    · rw [scan_spelling hvalid hdone, hts]
      rfl

/-- Some token is read wherever one is written; it may reach further. -/
theorem lexeme?_spelling_ne_none {x : Lexeme} (hx : x.IsValid) (rest : Text) :
    lexeme? (x.spelling ++ rest) ≠ none := by
  have run {name : Text} (ha : name.head?.any Char.isAlphanum = true)
      (hn : name.all isWordCharacter = true) : lexeme? (name ++ rest) ≠ none := by
    have hlonger : ∀ c ∈ name ++ rest.takeWhile isWordCharacter, isWordCharacter c = true := by
      intro c hc
      rcases List.mem_append.mp hc with hc | hc
      · exact List.all_eq_true.mp hn c hc
      · exact List.mem_takeWhile_imp hc
    have hend : ∀ c ∈ (rest.dropWhile isWordCharacter).head?, isWordCharacter c = false := by
      intro c hc
      have hnot := List.head?_dropWhile_not isWordCharacter rest
      rwa [Option.mem_def.mp hc] at hnot
    have hhead : (name ++ rest.takeWhile isWordCharacter).head?.any Char.isAlphanum = true := by
      cases name with
      | nil => simp at ha
      | cons c name => exact ha
    have h := lexeme?_run hhead hlonger hend
    rw [List.append_assoc, List.takeWhile_append_dropWhile] at h
    simp [h]
  have apart (hk : ¬(x.kind = .word ∨ x.kind = .call)) : lexeme? (x.spelling ++ rest) ≠ none := by
    have h : lexeme? (x.spelling ++ rest) = some (x, rest) :=
      lexeme?_spelling hx fun h => absurd h hk
    simp [h]
  cases x with
  | word name => exact run hx.1 (List.all_eq_true.mpr hx.2.1)
  | operation op => cases op <;> exact run (by decide) (by decide)
  | check k => cases k <;> exact run (by decide) (by decide)
  | literal body | quoted body => exact apart (by simp [kind])
  | dollar | ellipsis | comma | openParen | closeParen | and | or | not | question | colon =>
    exact apart (by simp [kind])

/-- The part of a text that an error shows. -/
def IsShown (t fragment : Text) : Prop :=
  if t.head? = some '"' ∨ t.head? = some '\x27' then fragment = t
  else fragment = t.takeWhile (!Text.isBlank ·)

theorem isShown_unreadable (c : Char) (cs : Text) : IsShown (c :: cs) (unreadable (c :: cs)) := by
  simp only [IsShown, List.head?_cons, Option.some.injEq, unreadable]
  split <;> rfl

/-- Scanning loses nothing and inverts writing. What is scanned are spellings with blanks between;
valid tokens that are written apart are scanned again, in their columns; and a text that cannot be
scanned is readable before the column of the error, where no token starts. The error shows the text
from there on, of an open string all of it and of anything else the part up to a blank. -/
theorem scanning_inverts_writing :
    (∀ t ts, ofText t = .ok ts →
      ∃ (layout : Layout) (last : Text), t = layout.text last ∧ ts = layout.tokens [] ∧
        layout.IsBlank ∧ ∀ c ∈ last, Text.isBlank c = true) ∧
    (∀ (layout : Layout) (last : Text), layout.IsBlank → layout.IsSpaced →
      (∀ c ∈ last, Text.isBlank c = true) → ofText (layout.text last) = .ok (layout.tokens [])) ∧
    ∀ t e, ofText t = .error e →
      ∃ done rest, t = done ++ rest ∧ e.column = done.length + 1 ∧ (∃ ts, ofText done = .ok ts) ∧
        (∃ c ∈ rest.head?, Text.isBlank c = false) ∧
        (∀ x : Lexeme, x.IsValid → ¬x.spelling <+: rest) ∧ IsShown rest e.fragment := by
  refine ⟨fun t ts h => ?_, fun layout last hblank hspaced hlast => ?_, fun t e h => ?_⟩
  · have hcolumn : 1 = ([] : Text).length + 1 := rfl
    exact exists_layout_of_scan hcolumn h
  · exact scan_text hblank hspaced hlast []
  · obtain ⟨done, c, rest, rfl, rfl, hc, hlex, hdone⟩ := exists_of_scan_eq_error h
    refine ⟨done, c :: rest, rfl, Nat.add_comm _ _, hdone, ⟨c, rfl, hc⟩, ?_,
      isShown_unreadable c rest⟩
    rintro x hx ⟨after, hafter⟩
    rw [← hafter] at hlex
    exact lexeme?_spelling_ne_none hx after hlex

def choiceLayout : Layout :=
  [([], .word ['A']), (['\u2003'], .question), ([' '], .quoted "\\\"x".toList), ([' '], .colon),
    (['\t'], .operation .env)]

theorem isBlank_choiceLayout : choiceLayout.IsBlank := by
  have hword : (Lexeme.word ['A']).IsValid :=
    ⟨by decide, by simp [isWordCharacter], fun op => by cases op <;> decide,
      fun k => by cases k <;> decide⟩
  have hquoted : (Lexeme.quoted "\\\"x".toList).IsValid := by
    have hclose : closeQuote '"' '"' "\\\"x\"".toList = some ("\\\"x".toList, []) := by decide
    exact (closes_quote (by decide)).mp (closeQuote_eq_some.mp hclose).2
  intro entry he
  simp only [choiceLayout, List.mem_cons, List.not_mem_nil, or_false] at he
  rcases he with rfl | rfl | rfl | rfl | rfl
  · exact ⟨by simp, hword⟩
  · exact ⟨by simp [Text.isBlank], trivial⟩
  · exact ⟨by simp [Text.isBlank], hquoted⟩
  · exact ⟨by simp [Text.isBlank], trivial⟩
  · exact ⟨by simp [Text.isBlank], trivial⟩

/-- The choice is scanned as it was written, and it can be written again; a hash is shown up to the
next blank, behind a readable text. -/
theorem scanning_inverts_writing_choice :
    (choiceLayout.IsBlank ∧ choiceLayout.IsSpaced ∧
      choiceLayout.text ['\n'] = "A\u2003? \"\\\"x\" :\tenv\n".toList ∧
      ofText (choiceLayout.text ['\n']) = .ok [⟨.word ['A'], 1⟩, ⟨.question, 3⟩,
        ⟨.quoted "\\\"x".toList, 5⟩, ⟨.colon, 11⟩, ⟨.operation .env, 13⟩] ∧
      ∃ (layout : Layout) (last : Text), choiceLayout.text ['\n'] = layout.text last ∧
        choiceLayout.tokens [] = layout.tokens [] ∧ layout.IsBlank) ∧
    ofText "A ? #bad x".toList = .error ⟨"#bad".toList, 5⟩ ∧
      ∃ done rest, "A ? #bad x".toList = done ++ rest ∧ 5 = done.length + 1 ∧
        (∃ ts, ofText done = .ok ts) ∧ IsShown rest "#bad".toList := by
  obtain ⟨hread, hwritten, hfailed⟩ := scanning_inverts_writing
  have hspaced : choiceLayout.IsSpaced := by simp [Layout.IsSpaced, choiceLayout]
  have hscan := hwritten choiceLayout ['\n'] isBlank_choiceLayout hspaced
    (by simp [Text.isBlank])
  have herror : ofText "A ? #bad x".toList = .error ⟨"#bad".toList, 5⟩ := by
    with_unfolding_all rfl
  refine ⟨⟨isBlank_choiceLayout, hspaced, by decide, hscan, ?_⟩, herror, ?_⟩
  · obtain ⟨layout, last, htext, htokens, hblank, -⟩ := hread _ _ hscan
    exact ⟨layout, last, htext, htokens, hblank⟩
  · obtain ⟨done, rest, ht, hcolumn, hdone, -, -, hshown⟩ := hfailed _ _ herror
    exact ⟨done, rest, ht, hcolumn, hdone, hshown⟩

end Token
end Countermand

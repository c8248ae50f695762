import Countermand.Proofs.Expression.Scanning
import Countermand.Proofs.Template.Dependence
import Countermand.Proofs.Template.Slicing
import Countermand.Proofs.Text.Splitting

/-! How deep templates stand in templates. The strings that an expansion asks for are shorter than
the template, so the asking ends; and as a quote inside a string comes right after a backslash,
where no token starts, there is no string in the fragments of a string. -/
namespace Countermand
open Results

namespace Lexeme

theorem spelling_ne_nil {x : Lexeme} (hx : x.IsValid) : x.spelling ≠ [] := by
  have hlast : x.Precedes [] := Token.precedes_of_blank (by simp) x
  exact (Token.spelling_append_of_lexeme? (Token.lexeme?_spelling hx hlast)).2

theorem getLast?_spelling {x : Lexeme} (hx : x.IsValid) : x.spelling.getLast? ≠ some '\\' := by
  cases x with
  | word name =>
    intro h
    have hword := hx.2.1 '\\' (List.mem_of_getLast? h)
    simp [Token.isWordCharacter] at hword
  | operation op => cases op <;> decide
  | check k => cases k <;> decide
  | literal body | quoted body =>
    rw [spelling, List.getLast?_append]
    simp
  | dollar | ellipsis | comma | openParen | closeParen | and | or | not | question | colon =>
    decide

end Lexeme

namespace Token

/-- Each double quote of a text comes right after a backslash, which may stand in what is before. -/
def Shields (before t : Text) : Prop :=
  ∀ left right, t = left ++ '"' :: right → (before ++ left).getLast? = some '\\'

theorem Shields.part {before front t back : Text} (h : Shields before (front ++ t ++ back)) :
    Shields (before ++ front) t := by
  rintro left right rfl
  rw [List.append_assoc]
  exact h (front ++ left) (right ++ back) (by simp)

theorem getLast?_append_blanks {before gap : Text} (hb : before.getLast? ≠ some '\\')
    (hgap : ∀ c ∈ gap, Text.isBlank c = true) : (before ++ gap).getLast? ≠ some '\\' := by
  rw [List.getLast?_append]
  cases h : gap.getLast? with
  | none => exact hb
  | some c =>
    have hc := hgap c (List.mem_of_getLast? h)
    rintro ⟨⟩
    exact absurd hc (by decide)

/-- A string token starts with a quote behind a blank, another token or the start of the text. -/
theorem not_quoted_of_shields {layout : Layout} {last before : Text} (hblank : layout.IsBlank)
    (hb : before.getLast? ≠ some '\\') (h : Shields before (layout.text last)) :
    ∀ entry ∈ layout, entry.2.kind ≠ .quoted := by
  induction layout generalizing before with
  | nil => simp
  | cons entry layout ih =>
    obtain ⟨gap, x⟩ := entry
    obtain ⟨hgap, hx⟩ := hblank (gap, x) (by simp)
    have hlast : (before ++ (gap ++ x.spelling)).getLast? ≠ some '\\' := by
      rw [← List.append_assoc, List.getLast?_append_of_ne_nil _ (Lexeme.spelling_ne_nil hx)]
      exact Lexeme.getLast?_spelling hx
    have hrest : Shields before (gap ++ x.spelling ++ Layout.text last layout ++ []) := by
      rwa [List.append_nil]
    refine List.forall_mem_cons.mpr ⟨?_, ih hblank.tail hlast hrest.part⟩
    intro hk
    cases x with
    | quoted body =>
      refine getLast?_append_blanks hb hgap (h gap (body ++ ['"'] ++ Layout.text last layout) ?_)
      simp [Layout.text, Lexeme.spelling]
    | _ => simp [Lexeme.kind] at hk

theorem map_lexeme_tokens (layout : Layout) (before : Text) :
    (layout.tokens before).map lexeme = layout.map Prod.snd := by
  induction layout generalizing before with
  | nil => rfl
  | cons entry layout ih => simp [Layout.tokens, ih]

theorem exists_entry_of_mem_tokens {layout : Layout} {before : Text} {x : Token}
    (hx : x ∈ layout.tokens before) : ∃ entry ∈ layout, entry.2 = x.lexeme := by
  have hmem : x.lexeme ∈ layout.map Prod.snd :=
    map_lexeme_tokens layout before ▸ List.mem_map_of_mem hx
  exact List.mem_map.mp hmem

theorem isValid_of_mem_ofText {t : Text} {ts : List Token} (h : ofText t = .ok ts) {x : Token}
    (hx : x ∈ ts) : x.lexeme.IsValid := by
  have hcolumn : 1 = ([] : Text).length + 1 := rfl
  obtain ⟨layout, last, -, rfl, hblank, -⟩ := exists_layout_of_scan hcolumn h
  obtain ⟨entry, hentry, he⟩ := exists_entry_of_mem_tokens hx
  exact he ▸ (hblank entry hentry).2

theorem not_quoted_of_ofText {before t : Text} {ts : List Token} (h : ofText t = .ok ts)
    (hb : before.getLast? ≠ some '\\') (hs : Shields before t) :
    ∀ x ∈ ts, x.lexeme.kind ≠ .quoted := by
  have hcolumn : 1 = ([] : Text).length + 1 := rfl
  obtain ⟨layout, last, rfl, rfl, hblank, -⟩ := exists_layout_of_scan hcolumn h
  intro x hx
  obtain ⟨entry, hentry, he⟩ := exists_entry_of_mem_tokens hx
  exact he ▸ not_quoted_of_shields hblank hb hs entry hentry

end Token

theorem Text.exists_blanks_trim (t : Text) :
    ∃ front back, t = front ++ trim t ++ back ∧ ∀ c ∈ front, isBlank c = true := by
  obtain ⟨front, hblank, hfront⟩ := exists_blanks_trimStart t
  obtain ⟨back, -, hback⟩ := exists_trimEnd_blanks (trimStart t)
  refine ⟨front, back, ?_, hblank⟩
  rw [List.append_assoc, trim, ← hback, ← hfront]

namespace Segment

theorem exists_of_fragment_mem {m : Markers} {t f : Text} {segments : List Segment}
    (hs : ofTemplate m t = some segments) (hf : .fragment f ∈ segments) :
    ∃ before after, t = before ++ m.opening ++ f ++ (m.closing ++ after) := by
  obtain ⟨front, back, rfl⟩ := List.append_of_mem hf
  refine ⟨front.flatMap (spelling m), back.flatMap (spelling m), ?_⟩
  rw [← (lossless_of_cut hs).1]
  simp [spelling]

theorem not_quoted_of_fragment {body f front part back : Text} {segments : List Segment}
    {ts : List Token} (hbody : Lexeme.IsStringBody '"' body)
    (hs : ofTemplate .backquote body = some segments) (hf : .fragment f ∈ segments)
    (hpart : f = front ++ part ++ back) (hblank : ∀ c ∈ front, Text.isBlank c = true)
    (hts : Token.ofText part = .ok ts) : ∀ x ∈ ts, x.lexeme.kind ≠ .quoted := by
  obtain ⟨before, after, rfl⟩ := exists_of_fragment_mem hs hf
  have hfragment : Token.Shields ([] ++ (before ++ ['\x60'])) f := Token.Shields.part hbody.1
  have hmark : (before ++ ['\x60']).getLast? ≠ some '\\' := by simp
  subst hpart
  exact Token.not_quoted_of_ofText hts (Token.getLast?_append_blanks hmark hblank) hfragment.part

end Segment

namespace Template

/-- A string stands in the expression of a fragment, so that its expansion may be asked for. -/
def Asks (m : Markers) (t body : Text) : Prop :=
  ∃ e, IsFragment m t e ∧ .quoted body ∈ e.spelling

/-- The expansion of a template with its markers asks for that of another one, in backquotes. -/
def Enters (inner outer : Markers × Text) : Prop :=
  inner.1 = .backquote ∧ Asks outer.1 outer.2 inner.2

variable {host : Host} {b : Bindings} {m : Markers} {t body : Text}

theorem Asks.length_lt (h : Asks m t body) : body.length < t.length := by
  obtain ⟨e, he, hbody⟩ := h
  exact he.length_lt hbody

theorem wellFounded_enters : WellFounded Enters :=
  Subrelation.wf (fun h => h.2.length_lt)
    (InvImage.wf (fun template : Markers × Text => template.2.length) Nat.lt_wfRel.wf)

/-- An expansion depends only on the expansions that it asks for. -/
theorem expandWith_congr_of_asks {nested nested' : Text → Except ExpansionError Expanded}
    (separator : Option Text) (h : ∀ body, Asks m t body → nested body = nested' body) :
    expandWith host b nested m separator t = expandWith host b nested' m separator t := by
  simp only [expandWith]
  cases hs : Segment.ofTemplate m t with
  | none => rfl
  | some segments =>
    have hpieces : pieces host b nested segments = pieces host b nested' segments := by
      refine pieces_congr fun f hf => fragmentPiece_congr fun e he => ?_
      exact Expression.evaluateWith_congr e ⟨fun _ _ _ => rfl, fun body hbody _ =>
        h body ⟨e, ⟨segments, f, hs, hf, he⟩, hbody⟩⟩
    simp only [hpieces]

theorem Asks.not_asks (h : Asks m t body) (inner : Text) : ¬Asks .backquote body inner := by
  rintro ⟨e, he, hinner⟩
  obtain ⟨outer, houter, hbody⟩ := h
  obtain ⟨_, _, _, _, -, -, hscan, htoken⟩ := houter.exists_token hbody
  obtain ⟨_, f, _, _, hs, hf, hts, hstring⟩ := he.exists_token hinner
  obtain ⟨front, back, hpart, hblank⟩ := Text.exists_blanks_trim f
  exact Segment.not_quoted_of_fragment (Token.isValid_of_mem_ofText hscan htoken) hs hf hpart
    hblank hts _ hstring rfl

/-- Expanding a template comes to an end. Every string that it asks for is shorter than the
template, so no template is entered for ever, and the expansion is what comes out if just those
strings are expanded in turn. No fragment of a string contains a string, so that the expansion is
already reached with strings expanded once, whatever would be done with strings inside of them. -/
theorem expand_enters_once (host : Host) (b : Bindings) (m : Markers) (separator : Option Text)
    (t : Text) :
    WellFounded Enters ∧ (∀ body, Asks m t body → body.length < t.length) ∧
    (∀ nested, (∀ body, Asks m t body → nested body = expand host b .backquote none body) →
      expandWith host b nested m separator t = expand host b m separator t) ∧
    (∀ text tokens body column, Token.ofText text = .ok tokens →
      (⟨.quoted body, column⟩ : Token) ∈ tokens →
      ∀ segments f, Segment.ofTemplate .backquote body = some segments →
        .fragment f ∈ segments →
        ∀ part inner, part = f ∨ part = Text.trim f → Token.ofText part = .ok inner →
          ∀ x ∈ inner, x.lexeme.kind ≠ .quoted) ∧
    ∀ nested, expandWith host b (expandWith host b nested .backquote none) m separator t =
      expand host b m separator t := by
  have hasked : ∀ nested, (∀ body, Asks m t body →
      nested body = expand host b .backquote none body) →
        expandWith host b nested m separator t = expand host b m separator t := fun nested h => by
    rw [expand_eq]
    exact expandWith_congr_of_asks separator h
  refine ⟨wellFounded_enters, fun body => Asks.length_lt, hasked, ?_, fun nested => ?_⟩
  · intro text tokens body column hscan htoken segments f hs hf part inner hpart hinner
    have hbody : Lexeme.IsStringBody '"' body := Token.isValid_of_mem_ofText hscan htoken
    rcases hpart with rfl | rfl
    · have hpart : part = [] ++ part ++ [] := by simp
      exact Segment.not_quoted_of_fragment hbody hs hf hpart (by simp) hinner
    · obtain ⟨front, back, htrim, hblank⟩ := Text.exists_blanks_trim f
      exact Segment.not_quoted_of_fragment hbody hs hf htrim hblank hinner
  · refine hasked _ fun body hbody => ?_
    rw [expand_eq]
    exact expandWith_congr_of_asks none fun inner hinner => absurd hinner (hbody.not_asks inner)

/-- The moves ask for one string; that no string inside of it could be expanded does not matter. -/
theorem expand_enters_once_moves :
    Asks .percent moves "\x60dirname($A)\x60/b".toList ∧
      "\x60dirname($A)\x60/b".toList.length < moves.length ∧
      (∀ inner, Token.ofText "dirname($A)".toList = .ok inner →
        ∀ x ∈ inner, x.lexeme.kind ≠ .quoted) ∧
      expandWith bareHost [("A".toList, .list moved)] (expandWith bareHost
          [("A".toList, .list moved)] (fun _ => .error (.evaluation (.unknownCall [])))
          .backquote none) .percent none moves =
        .ok (.many ["mv x/a x/b".toList, "mv y/a y/b".toList]) := by
  have hasks : Asks .percent moves "\x60dirname($A)\x60/b".toList :=
    ⟨_, ⟨_, _, ofTemplate_moves, by simp [moveSegments], parse_quoted⟩,
      by simp [Expression.spelling]⟩
  obtain ⟨-, hshorter, -, hstring, honce⟩ :=
    expand_enters_once bareHost [("A".toList, .list moved)] .percent none moves
  refine ⟨hasks, hshorter _ hasks, fun inner hinner => ?_, (honce _).trans expand_moves⟩
  exact hstring _ _ _ _ ofText_quoted List.mem_cons_self _ _ ofTemplate_moves_string
    (by simp [stringSegments]) _ inner (.inl rfl) hinner

end Template
end Countermand

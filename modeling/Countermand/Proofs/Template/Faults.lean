import Countermand.FileSystem.Tree
import Countermand.Proofs.Expression.Completeness
import Countermand.Proofs.Template.Cutting
import Countermand.Proofs.Template.Nesting

/-! How an expansion can fail: its markers are out of balance, a fragment is no expression, lists
differ in length, a join is to be done by a list, or one of these befalls a string inside of it. No
fragment that is to yield text ever yields a truth value. -/
namespace Countermand
open Results

/-- What an argument hands over: a name that is spread its value as it is. -/
def Expression.argument (host : Host) (b : Bindings) (e : Expression) :
    Except ExpansionError Evaluated :=
  e.argumentWith host b (Template.expand host b .backquote none)

namespace Template

/-- The failures of a template, each with what is wrong in it. -/
inductive Fault (host : Host) (b : Bindings) : Markers → Text → ExpansionError → Prop
  | unbalanced {m : Markers} {t : Text} (cut : Segment.ofTemplate m t = none) :
    Fault host b m t (.unbalanced m.opening t)
  | unreadable {m : Markers} {t f : Text} {segments : List Segment} {cause : ParseError}
    (cut : Segment.ofTemplate m t = some segments) (mem : .fragment f ∈ segments)
    (parse : Expression.parse (Text.trim f) = .error cause) :
    Fault host b m t (.unreadable (Text.trim f) cause)
  | uneven {m : Markers} {t : Text} {e e' : Expression} {items items' : List Text}
    (fragment : IsFragment m t e) (list : e.evaluate host b = .ok (.list items))
    (fragment' : IsFragment m t e') (list' : e'.evaluate host b = .ok (.list items'))
    (uneven : items.length ≠ items'.length) :
    Fault host b m t (.evaluation (.unevenLists items.length items'.length))
  | separator {m : Markers} {t : Text} {e x s : Expression} {items : List Text}
    (fragment : IsFragment m t e) (call : (Expression.operation .join [x, s]).IsWithin e)
    (list : s.argument host b = .ok (.list items)) :
    Fault host b m t (.evaluation (.listSeparator .join 2))
  | string {m : Markers} {t body : Text} {e : Expression} {error : ExpansionError}
    (fragment : IsFragment m t e) (mem : .quoted body ∈ e.spelling)
    (inner : Fault host b .backquote body error) : Fault host b m t error

variable {host : Host} {b : Bindings}

/-- Evaluation provides for two failures that never come about. -/
theorem Fault.ne_unreachable {m : Markers} {t : Text} {error : ExpansionError}
    (h : Fault host b m t error) (name : Text) :
    error ≠ .evaluation (.missingDelimiter name) ∧ error ≠ .evaluation (.unknownCall name) := by
  induction h with
  | string _ _ _ ih => exact ih
  | _ => simp

theorem exists_of_fragmentPiece_error {nested : Text → Except ExpansionError Expanded} {f : Text}
    {error : ExpansionError} (h : fragmentPiece host b nested f = .error error) :
    (∃ cause, Expression.parse (Text.trim f) = .error cause ∧
      error = .unreadable (Text.trim f) cause) ∨
    ∃ e, Expression.parse (Text.trim f) = .ok e ∧ e.evaluateWith host b nested = .error error := by
  rw [fragmentPiece] at h
  rcases bind_eq_error.mp h with hread | ⟨e, hread, h⟩
  · obtain ⟨cause, hparse, rfl⟩ := mapError_eq_error.mp hread
    exact .inl ⟨cause, hparse, rfl⟩
  · refine .inr ⟨e, mapError_eq_ok.mp hread, ?_⟩
    split at h
    · simp at h
    · rcases bind_eq_error.mp h with hvalue | ⟨v, -, h⟩
      · exact hvalue
      · split at h <;> simp at h

theorem exists_of_pieces_error {nested : Text → Except ExpansionError Expanded}
    {segments : List Segment} {error : ExpansionError}
    (h : pieces host b nested segments = .error error) :
    ∃ f, .fragment f ∈ segments ∧ fragmentPiece host b nested f = .error error := by
  induction segments with
  | nil => simp [pieces] at h
  | cons segment segments ih =>
    have later (h : pieces host b nested segments = .error error) :
        ∃ f, .fragment f ∈ segment :: segments ∧ fragmentPiece host b nested f = .error error := by
      obtain ⟨f, hf, hpiece⟩ := ih h
      exact ⟨f, List.mem_cons_of_mem segment hf, hpiece⟩
    cases segment with
    | literal text =>
      rw [pieces] at h
      rcases bind_eq_error.mp h with hmore | ⟨ps, -, h⟩
      · exact later hmore
      · simp at h
    | fragment f =>
      rw [pieces] at h
      rcases bind_eq_error.mp h with hpiece | ⟨piece, -, h⟩
      · exact ⟨f, by simp, hpiece⟩
      · rcases bind_eq_error.mp h with hmore | ⟨ps, -, h⟩
        · exact later hmore
        · simp at h

theorem exists_of_list_mem_pieces {nested : Text → Except ExpansionError Expanded}
    {segments : List Segment} {ps : List Piece} (h : pieces host b nested segments = .ok ps)
    {items : List Text} (hp : .list items ∈ ps) :
    ∃ f e, .fragment f ∈ segments ∧ Expression.parse (Text.trim f) = .ok e ∧
      e.evaluateWith host b nested = .ok (.list items) := by
  induction segments generalizing ps with
  | nil =>
    obtain rfl := Except.ok.inj h
    simp at hp
  | cons segment segments ih =>
    cases segment with
    | literal text =>
      obtain ⟨more, hmore, h⟩ := bind_eq_ok.mp h
      obtain rfl := Except.ok.inj h
      obtain ⟨f, e, hf, he⟩ := ih hmore (by simpa using hp)
      exact ⟨f, e, List.mem_cons_of_mem _ hf, he⟩
    | fragment f =>
      obtain ⟨piece, hpiece, h⟩ := bind_eq_ok.mp h
      obtain ⟨more, hmore, h⟩ := bind_eq_ok.mp h
      obtain rfl := Except.ok.inj h
      rcases List.mem_append.mp hp with hp | hp
      · obtain rfl := Option.mem_toList.mp hp
        rw [fragmentPiece] at hpiece
        obtain ⟨e, hread, hpiece⟩ := bind_eq_ok.mp hpiece
        refine ⟨f, e, by simp, mapError_eq_ok.mp hread, ?_⟩
        split at hpiece
        · simp at hpiece
        · obtain ⟨v, hv, hpiece⟩ := bind_eq_ok.mp hpiece
          rw [hv]
          cases v <;> simp at hpiece
          rw [hpiece]
      · obtain ⟨f', e, hf, he⟩ := ih hmore hp
        exact ⟨f', e, List.mem_cons_of_mem _ hf, he⟩

theorem exists_of_broadcast_error {ps : List Piece} {error : EvaluationError}
    (h : broadcast ps = .error error) :
    ∃ items items' : List Text, .list items ∈ ps ∧ .list items' ∈ ps ∧
      items.length ≠ items'.length ∧ error = .unevenLists items.length items'.length := by
  have list {width : Nat} (hw : width ∈ ps.filterMap Piece.width?) :
      ∃ items : List Text, .list items ∈ ps ∧ items.length = width := by
    obtain ⟨piece, hp, hwidth⟩ := List.mem_filterMap.mp hw
    cases piece with
    | text body => simp [Piece.width?] at hwidth
    | list items => exact ⟨items, hp, Option.some.inj hwidth⟩
  unfold broadcast at h
  split at h
  · simp at h
  · rename_i width widths hwidths
    split at h
    · rename_i found hfound
      obtain ⟨items, hitems, rfl⟩ := list (hwidths ▸ List.mem_cons_self)
      obtain ⟨items', hitems', rfl⟩ :=
        list (hwidths ▸ List.mem_cons_of_mem _ (List.mem_of_find?_eq_some hfound))
      have hne : items'.length ≠ items.length := by simpa using List.find?_some hfound
      exact ⟨items, items', hitems, hitems', hne.symm, (Except.error.inj h).symm⟩
    · simp at h

/-- An expansion fails because of a fault in the template or in a string inside of it. -/
theorem fault_of_expand_error {m : Markers} {separator : Option Text} {t : Text}
    {error : ExpansionError} (h : expand host b m separator t = .error error) :
    Fault host b m t error := by
  induction hlen : t.length using Nat.strongRecOn generalizing m separator t error with
  | ind n ih =>
    subst hlen
    rw [expand_eq, expandWith] at h
    split at h
    · rename_i hcut
      obtain rfl := Except.error.inj h
      exact .unbalanced hcut
    · rename_i segments hcut
      rcases bind_eq_error.mp h with hpieces | ⟨ps, hps, h⟩
      · obtain ⟨f, hf, hpiece⟩ := exists_of_pieces_error hpieces
        rcases exists_of_fragmentPiece_error hpiece with ⟨cause, hparse, rfl⟩ | ⟨e, hparse, he⟩
        · exact .unreadable hcut hf hparse
        · have hfragment : IsFragment m t e := ⟨segments, f, hcut, hf, hparse⟩
          cases Expression.fault_of_evaluateWith_error hfragment.wellFormed he with
          | string mem fails =>
            exact .string hfragment mem (ih _ (hfragment.length_lt mem) fails rfl)
          | separator call list => exact .separator hfragment call list
      · rcases bind_eq_error.mp h with hbroadcast | ⟨commands, -, h⟩
        · obtain ⟨cause, hcause, rfl⟩ := mapError_eq_error.mp hbroadcast
          obtain ⟨items, items', hitems, hitems', hne, rfl⟩ := exists_of_broadcast_error hcause
          obtain ⟨f, e, hf, hparse, he⟩ := exists_of_list_mem_pieces hps hitems
          obtain ⟨f', e', hf', hparse', he'⟩ := exists_of_list_mem_pieces hps hitems'
          rw [← Expression.evaluate_eq] at he he'
          exact .uneven ⟨segments, f, hcut, hf, hparse⟩ he
            ⟨segments, f', hcut, hf', hparse'⟩ he' hne
        · simp at h

/-- What is read as a value yields no truth value and a condition yields nothing else. So a
fragment of a template is text or a list in every case, and an expansion fails only in the ways of
`Fault`: no list is ever without something to join its items by, and no call is unknown. -/
theorem expand_type_sound (host : Host) (b : Bindings) :
    (∀ t e v, Expression.parse t = .ok e → e.evaluate host b = .ok v → v.kind = e.kind) ∧
    ∀ m separator t,
      (∀ e nested holds, IsFragment m t e → e.kind = .value →
        e.evaluateWith host b nested ≠ .ok (.truth holds)) ∧
      ∀ error, expand host b m separator t = .error error →
        Fault host b m t error ∧ ∀ name, error ≠ .evaluation (.missingDelimiter name) ∧
          error ≠ .evaluation (.unknownCall name) := by
  refine ⟨fun t e v hparse hv => ?_, fun m separator t => ⟨?_, fun error h => ?_⟩⟩
  · exact Expression.kind_of_evaluateWith (Expression.parse_sound hparse).1 hv
  · intro e nested holds hfragment hvalue htruth
    have hkind := Expression.kind_of_evaluateWith hfragment.wellFormed htruth
    rw [hvalue] at hkind
    cases hkind
  · have hfault := fault_of_expand_error h
    exact ⟨hfault, hfault.ne_unreachable⟩

def joinByList : Text := "ls % \"\x60join($A, $A...)\x60\" %".toList

def joinedByList : Text := "\x60join($A, $A...)\x60".toList

def emptyHost : Host := ⟨FileSystem.Tree.fileSystem [] [], "/".toList, []⟩

def pairs : Bindings := [("A".toList, .list ["x".toList, "y".toList])]

theorem ofTemplate_joinByList : Segment.ofTemplate .percent joinByList =
    some [.literal "ls ".toList, .fragment " \"\x60join($A, $A...)\x60\" ".toList] :=
  Segment.ofTemplate_written (q := '%') (by decide)
    [.literal "ls ".toList, .fragment " \"\x60join($A, $A...)\x60\" ".toList] (by decide)

theorem ofTemplate_joinedByList : Segment.ofTemplate .backquote joinedByList =
    some [.fragment "join($A, $A...)".toList] :=
  Segment.ofTemplate_written (q := '\x60') (by decide) [.fragment "join($A, $A...)".toList]
    (by decide)

theorem parse_joinByList :
    Expression.parse (Text.trim " \"\x60join($A, $A...)\x60\" ".toList) =
      .ok (.quoted joinedByList) := by
  have ht : Token.ofText (Text.trim " \"\x60join($A, $A...)\x60\" ".toList) =
      .ok [⟨.quoted joinedByList, 1⟩] := by with_unfolding_all rfl
  exact Expression.parse_complete ht .quoted rfl

theorem parse_joinedByList : Expression.parse (Text.trim "join($A, $A...)".toList) =
    .ok (.operation .join [.access "A".toList .plain,
      .access "A".toList (.joined (some " ".toList))]) := by
  have ht : Token.ofText (Text.trim "join($A, $A...)".toList) =
      .ok [⟨.operation .join, 1⟩, ⟨.openParen, 5⟩, ⟨.dollar, 6⟩, ⟨.word "A".toList, 7⟩,
        ⟨.comma, 8⟩, ⟨.dollar, 10⟩, ⟨.word "A".toList, 11⟩, ⟨.ellipsis, 12⟩,
        ⟨.closeParen, 15⟩] := by with_unfolding_all rfl
  refine Expression.parse_complete ht (.operation rfl ?_ ?_) rfl
  · simp [Expression.kind]
  · simpa using ⟨Expression.WellFormed.access (.inl rfl), Expression.WellFormed.access (.inr rfl)⟩

theorem expand_joinedByList (host : Host) : expand host pairs .backquote none joinedByList =
    .error (.evaluation (.listSeparator .join 2)) := by
  rw [expand_eq, expandWith, ofTemplate_joinedByList]
  simp only [pieces, fragmentPiece, parse_joinedByList]
  rfl

theorem expand_joinByList (host : Host) : expand host pairs .percent none joinByList =
    .error (.evaluation (.listSeparator .join 2)) := by
  rw [expand_eq, expandWith, ofTemplate_joinByList]
  simp only [pieces, fragmentPiece, parse_joinByList, Except.mapError, ok_bind, Expression.kind,
    Expression.evaluateWith, expand_joinedByList]
  rfl

/-- A name that is spread hands its list over as the separator. -/
theorem expand_type_sound_joinByList :
    expand emptyHost pairs .percent none joinByList =
        .error (.evaluation (.listSeparator .join 2)) ∧
      Fault emptyHost pairs .percent joinByList (.evaluation (.listSeparator .join 2)) := by
  have herror := expand_joinByList emptyHost
  obtain ⟨-, hsound⟩ := expand_type_sound emptyHost pairs
  obtain ⟨-, hfaults⟩ := hsound .percent none joinByList
  exact ⟨herror, (hfaults _ herror).1⟩

end Template
end Countermand

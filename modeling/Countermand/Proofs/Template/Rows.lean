import Countermand.Proofs.Expression.Completeness
import Countermand.Proofs.Template.Broadcast
import Countermand.Proofs.Template.Cutting

/-! A template over lists of `n` items expands to `n` commands, one for each row of items, each of
them the expansion over the items of its row. -/
namespace Countermand
open Results

def Value.item (i : Nat) : Value → Value
  | .list items => .text (items.getD i [])
  | v => v

def Evaluated.item (i : Nat) : Evaluated → Evaluated
  | .list items => .text (items.getD i [])
  | v => v

def Expanded.item (i : Nat) : Expanded → Expanded
  | .many commands => .single (commands.getD i [])
  | x => x

/-- The environment has the items of one row in place of the lists that are mentioned. -/
def IsRow (b row : Bindings) (i : Nat) (mentions : Usage → Text → Prop) : Prop :=
  ∀ usage name, mentions usage name → row.get? name = (b.get? name).map (Value.item i)

section
variable {b row : Bindings} {n i : Nat} {mentions mentions' : Usage → Text → Prop}

theorem IsRow.mono (h : IsRow b row i mentions)
    (hm : ∀ usage name, mentions' usage name → mentions usage name) : IsRow b row i mentions' :=
  fun usage name hn => h usage name (hm usage name hn)

theorem map_item_of_ne_list {v : Option Value} (h : ∀ list, v ≠ some (.list list)) :
    v.map (Value.item i) = v := by
  cases v with
  | none => rfl
  | some v =>
    cases v with
    | list items => exact absurd rfl (h items)
    | _ => rfl

theorem IsRow.agree (hr : IsRow b row i mentions) (hb : Broadcasts b n mentions)
    (hm : ∀ usage name, mentions' usage name → mentions .whole name) :
    Expression.Agree mentions' b row := by
  intro usage name hn
  have hw := hm usage name hn
  rw [hr _ _ hw, map_item_of_ne_list (hb.ne_list hw)]

end

namespace Expression

variable {host : Host} {b row : Bindings} {n i : Nat}

theorem evaluate_isWide {e : Expression} (hw : e.WellFormed) (hb : Broadcasts b n e.Mentions)
    {v : Evaluated} (hv : e.evaluate host b = .ok v) : IsWide n (e.ReadsList host b) v :=
  evaluate_isWide_of_strings hw hb (fun _ _ hbody _ hx => Template.expand_isWide hbody hx) hv

theorem whole_of_conditional {e : Expression} (hk : e.kind = .conditional) (usage : Usage)
    (name : Text) (h : e.Mentions usage name) : e.Mentions .whole name := by
  cases h with
  | existence => exact .existence
  | chain mentions => exact .chain mentions
  | checked mem mentions => exact .checked mem mentions
  | checkChain mentions => exact .checkChain mentions
  | _ => simp [kind] at hk

theorem lookup_item {name : Text} (h : row.get? name = (b.get? name).map (Value.item i)) :
    lookup row name = (lookup b name).item i := by
  simp only [lookup, h]
  cases b.get? name with
  | none => rfl
  | some v => cases v <;> rfl

theorem item_of_ne_list {v : Evaluated} (h : ∀ items, v ≠ .list items) : v.item i = v := by
  cases v with
  | list items => exact absurd rfl (h items)
  | _ => rfl

/-- An operation that is done item by item comes to the item of its list. -/
theorem evaluate_operation_item {op : Operation} (hop : op ≠ .join) {e : Expression}
    (he : ∀ name delimiter, e ≠ .access name (.joined delimiter)) (hi : i < n)
    (hrow : e.evaluate host row = (e.evaluate host b).map (Evaluated.item i))
    (hwidth : ∀ items, e.evaluate host b = .ok (.list items) → items.length = n) :
    (operation op [e]).evaluate host row =
      ((operation op [e]).evaluate host b).map (Evaluated.item i) := by
  rw [evaluate_operation hop he, evaluate_operation hop he, hrow]
  cases hv : e.evaluate host b with
  | error fault => rfl
  | ok v =>
    cases v with
    | list items =>
      have hlt : i < items.length := hwidth items hv ▸ hi
      change operate host op (some e) [.text (items.getD i [])] =
        (operate host op (some e) [.list items]).map (Evaluated.item i)
      rw [operate_list he]
      simp [operate, Except.map, Evaluated.item, Evaluated.items, hlt]
    | _ => rfl

/-- The value over the items of a row is the item of the value over the lists. -/
theorem evaluate_item {e : Expression} (hw : e.WellFormed) (hb : Broadcasts b n e.Mentions)
    (hr : IsRow b row i e.Mentions) (hi : i < n)
    (hs : ∀ body, .quoted body ∈ e.spelling → Broadcasts b n (Template.Mentions .backquote body) →
      IsRow b row i (Template.Mentions .backquote body) →
      Template.expand host row .backquote none body =
        (Template.expand host b .backquote none body).map (Expanded.item i)) :
    e.evaluate host row = (e.evaluate host b).map (Evaluated.item i) := by
  induction e using induction_on_parts with
  | step e ih =>
    have part {p : Expression} (hp : p.IsPart e)
        (hm : ∀ usage name, p.Mentions usage name → e.Mentions usage name) :
        p.evaluate host row = (p.evaluate host b).map (Evaluated.item i) :=
      ih p hp (hp.wellFormed hw) (hb.mono hm) (hr.mono hm)
        fun body hbody => hs body (hp.mem_spelling hbody)
    have whole (hm : ∀ usage name, e.Mentions usage name → e.Mentions .whole name) :
        e.evaluate host row = (e.evaluate host b).map (Evaluated.item i) := by
      rw [← evaluate_congr (hr.agree hb hm)]
      cases hv : e.evaluate host b with
      | error fault => rfl
      | ok v =>
        have hne : ∀ items, v ≠ .list items := by
          rintro items rfl
          exact not_readsList hb hm (evaluate_isWide hw hb hv).2
        simp [Except.map, item_of_ne_list hne]
    cases e with
    | access name spread =>
      cases spread with
      | plain =>
        rw [evaluate_eq, evaluate_eq, evaluateWith, evaluateWith, evaluateName_eq (.inl rfl),
          evaluateName_eq (.inl rfl), lookup_item (hr _ _ .access)]
        rfl
      | joined delimiter =>
        refine whole fun usage x hm => ?_
        cases hm
        exact .spread
    | literal body =>
      rw [evaluate_eq, evaluate_eq]
      rfl
    | quoted body =>
      have hsub : ∀ usage name, Template.Mentions .backquote body usage name →
          (quoted body).Mentions usage name := by
        rintro usage name ⟨e, he, hm⟩
        exact .quoted he hm
      rw [evaluate_quoted, evaluate_quoted,
        hs body (by simp [spelling]) (hb.mono hsub) (hr.mono hsub)]
      cases Template.expand host b .backquote none body with
      | error fault => rfl
      | ok x => cases x <;> rfl
    | choice condition yes no =>
      rw [evaluate_choice, evaluate_choice,
        ← evaluate_congr (hr.agree hb fun usage name => .condition)]
      cases condition.evaluate host b with
      | error fault => rfl
      | ok c =>
        by_cases ht : c.isTruthy = true
        · simpa [ht] using part .yes fun _ _ => .yes
        · cases no with
          | none => simp [ht]; rfl
          | some no => simpa [ht] using part .no fun _ _ => .no
    | existence negated name chain => exact whole (whole_of_conditional rfl)
    | operation op arguments =>
      rcases operation_cases hw with rfl | ⟨hop, e, rfl, ⟨name, delimiter, rfl⟩ | he⟩
      · exact whole whole_of_join
      · exact whole whole_of_spread
      · have hmem := List.mem_singleton_self e
        have hm : ∀ usage name, e.Mentions usage name → (operation op [e]).Mentions usage name :=
          fun _ _ => .argument hop hmem
        refine evaluate_operation_item hop he hi (part (.argument hmem) hm) fun items hv => ?_
        exact (evaluate_isWide ((IsPart.argument hmem).wellFormed hw) (hb.mono hm) hv).1
    | check negated k arguments chain => exact whole (whole_of_conditional rfl)

end Expression

namespace Template

variable {host : Host} {b row : Bindings} {n i : Nat}

theorem fragmentPiece_item {f : Text}
    (hf : ∀ e, Expression.parse (Text.trim f) = .ok e →
      e.evaluate host row = (e.evaluate host b).map (Evaluated.item i)) :
    fragmentPiece host row (expand host row .backquote none) f =
      (fragmentPiece host b (expand host b .backquote none) f).map
        (Option.map fun p => .text (p.textAt i)) := by
  rw [fragmentPiece_eq, fragmentPiece_eq]
  cases he : Expression.parse (Text.trim f) with
  | error fault => rfl
  | ok e =>
    simp only [Except.mapError, ok_bind, hf e he]
    cases e.kind with
    | conditional => rfl
    | value =>
      cases e.evaluate host b with
      | error fault => rfl
      | ok v => cases v <;> rfl

theorem pieces_item {segments : List Segment}
    (hs : ∀ f e, .fragment f ∈ segments → Expression.parse (Text.trim f) = .ok e →
      e.evaluate host row = (e.evaluate host b).map (Evaluated.item i)) :
    pieces host row (expand host row .backquote none) segments =
      (pieces host b (expand host b .backquote none) segments).map
        (List.map fun p => .text (p.textAt i)) := by
  induction segments with
  | nil => rfl
  | cons s segments ih =>
    have ih := ih fun f e hf => hs f e (List.mem_cons_of_mem s hf)
    cases s with
    | literal text =>
      simp only [pieces, ih]
      cases pieces host b (expand host b .backquote none) segments <;> rfl
    | fragment f =>
      simp only [pieces, ih, fragmentPiece_item fun e he => hs f e (by simp) he]
      cases fragmentPiece host b (expand host b .backquote none) f with
      | error fault => rfl
      | ok piece? =>
        cases pieces host b (expand host b .backquote none) segments with
        | error fault => rfl
        | ok ps => cases piece? <;> rfl

theorem expand_item {m : Markers} {t : Text} (hb : Broadcasts b n (Mentions m t))
    (hr : IsRow b row i (Mentions m t)) (hi : i < n) :
    expand host row m none t = (expand host b m none t).map (Expanded.item i) := by
  induction hlen : t.length using Nat.strongRecOn generalizing m t with
  | ind k ih =>
    subst hlen
    rw [expand_eq, expand_eq host b]
    simp only [expandWith]
    cases hsegments : Segment.ofTemplate m t with
    | none => rfl
    | some segments =>
      have hfragment : ∀ f e, .fragment f ∈ segments → Expression.parse (Text.trim f) = .ok e →
          IsFragment m t e := fun f e hf he => ⟨segments, f, hsegments, hf, he⟩
      have hpieces : pieces host row (expand host row .backquote none) segments =
          (pieces host b (expand host b .backquote none) segments).map
            (List.map fun p => .text (p.textAt i)) := by
        refine pieces_item fun f e hf he => ?_
        have h := hfragment f e hf he
        have hsub : ∀ usage name, e.Mentions usage name → Mentions m t usage name :=
          fun usage name hm => ⟨e, h, hm⟩
        exact Expression.evaluate_item h.wellFormed (hb.mono hsub) (hr.mono hsub) hi
          fun body hbody hb' hr' => ih _ (h.length_lt hbody) hb' hr' rfl
      simp only [hpieces]
      cases hps : pieces host b (expand host b .backquote none) segments with
      | error fault => rfl
      | ok ps =>
        have hwide : PiecesWide n (SegmentsRead host b segments) ps :=
          pieces_isWide hps fun f e hf he v hv =>
            Expression.evaluate_isWide (hfragment f e hf he).wellFormed
              (hb.mono fun usage name hm => ⟨e, hfragment f e hf he, hm⟩) hv
        simp only [Except.map, ok_bind, broadcast_row,
          broadcast_eq fun p hp w hw => (hwide.width p hp w hw).1, Except.mapError, pure_eq_ok,
          gather_eq]
        refine congrArg Except.ok ?_
        by_cases hnone : ∀ p ∈ ps, p.width? = none
        · rw [if_pos hnone, if_pos rfl]
          exact congrArg Expanded.single
            (List.flatMap_congr fun p hp => textAt_of_width?_eq_none (hnone p hp) i 0)
        · rw [if_neg hnone]
          by_cases hn : n = 1
          · obtain rfl : i = 0 := by omega
            rw [if_pos hn]
            rfl
          · rw [if_neg hn]
            simp [gather, Expanded.item, hi]

/-- A template over lists of `n` items, used item by item, fails just if it fails over the first
items, with the same error. Otherwise its commands are those of the rows, or the one command of
all rows if no list is read. -/
theorem expand_broadcast {b : Bindings} {n : Nat} (hn : 1 ≤ n) {m : Markers} {t : Text}
    (hb : Broadcasts b n (Mentions m t)) {row : Nat → Bindings}
    (hr : ∀ i < n, IsRow b (row i) i (Mentions m t)) :
    (∀ error, expand host b m none t = .error error ↔
      expand host (row 0) m none t = .error error) ∧
    ∀ x, expand host b m none t = .ok x → ∃ c : Nat → Text,
      (∀ i < n, expand host (row i) m none t = .ok (.single (c i))) ∧
      (ReadsList host b m t → x.commands = (List.range n).map c) ∧
      (¬ReadsList host b m t → ∃ d, x.commands = [d] ∧ ∀ i < n, c i = d) := by
  have hitem : ∀ i < n, expand host (row i) m none t =
      (expand host b m none t).map (Expanded.item i) := fun i hi => expand_item hb (hr i hi) hi
  constructor
  · intro error
    rw [hitem 0 (by omega)]
    cases expand host b m none t <;> simp [Except.map]
  · intro x hx
    have hwide := expand_isWide hb hx
    cases x with
    | single d =>
      refine ⟨fun _ => d, ?_, ?_, fun _ => ⟨d, rfl, fun _ _ => rfl⟩⟩
      · intro i hi
        rw [hitem i hi, hx]
        rfl
      · intro hreads
        obtain rfl : n = 1 := hwide hreads
        rfl
    | many commands =>
      refine ⟨fun i => commands.getD i [], ?_, ?_, fun hnot => absurd hwide.2 hnot⟩
      · intro i hi
        rw [hitem i hi, hx]
        rfl
      · intro _
        obtain rfl : commands.length = n := hwide.1
        exact (map_getD_range commands).symm

/-- Moves that read the same list in a fragment and in a string inside another fragment. -/
def moves : Text := "mv % $A % % \"\x60dirname($A)\x60/b\" %".toList

def bareHost : Host :=
  ⟨⟨fun _ => none, fun _ => none, fun _ => none, fun _ => none⟩, "/".toList, []⟩

def moved : List Text := ["x/a".toList, "y/a".toList]

def moveSegments : List Segment := [.literal "mv ".toList, .fragment " $A ".toList,
  .literal " ".toList, .fragment " \"\x60dirname($A)\x60/b\" ".toList]

def stringSegments : List Segment := [.fragment "dirname($A)".toList, .literal "/b".toList]

theorem ofTemplate_moves : Segment.ofTemplate .percent moves = some moveSegments :=
  Segment.ofTemplate_written (q := '%') (by decide) moveSegments (by decide)

theorem ofTemplate_moves_string : Segment.ofTemplate .backquote "\x60dirname($A)\x60/b".toList =
    some stringSegments :=
  Segment.ofTemplate_written (q := '\x60') (by decide) stringSegments (by decide)

theorem ofText_access : Token.ofText (Text.trim " $A ".toList) =
    .ok [⟨.dollar, 1⟩, ⟨.word "A".toList, 2⟩] := by
  with_unfolding_all rfl

theorem ofText_dirname : Token.ofText (Text.trim "dirname($A)".toList) =
    .ok [⟨.operation .dirname, 1⟩, ⟨.openParen, 8⟩, ⟨.dollar, 9⟩, ⟨.word "A".toList, 10⟩,
      ⟨.closeParen, 11⟩] := by
  with_unfolding_all rfl

theorem ofText_quoted : Token.ofText (Text.trim " \"\x60dirname($A)\x60/b\" ".toList) =
    .ok [⟨.quoted "\x60dirname($A)\x60/b".toList, 1⟩] := by
  with_unfolding_all rfl

theorem parse_access : Expression.parse (Text.trim " $A ".toList) =
    .ok (.access "A".toList .plain) :=
  Expression.parse_complete ofText_access (.access (.inl rfl)) rfl

theorem parse_dirname : Expression.parse (Text.trim "dirname($A)".toList) =
    .ok (.operation .dirname [.access "A".toList .plain]) := by
  refine Expression.parse_complete ofText_dirname (.operation rfl ?_ ?_) rfl
  · simp [Expression.kind]
  · simpa using Expression.WellFormed.access (.inl rfl)

theorem parse_quoted : Expression.parse (Text.trim " \"\x60dirname($A)\x60/b\" ".toList) =
    .ok (.quoted "\x60dirname($A)\x60/b".toList) :=
  Expression.parse_complete ofText_quoted .quoted rfl

theorem isFragment_moves {e : Expression} (h : IsFragment .percent moves e) :
    e = .access "A".toList .plain ∨ e = .quoted "\x60dirname($A)\x60/b".toList := by
  obtain ⟨segments, f, hs, hf, he⟩ := h
  obtain rfl := Option.some.inj (ofTemplate_moves.symm.trans hs)
  simp only [moveSegments, List.mem_cons, Segment.fragment.injEq, reduceCtorEq, List.not_mem_nil,
    or_false, false_or] at hf
  rcases hf with rfl | rfl
  · exact .inl (Except.ok.inj (he.symm.trans parse_access))
  · exact .inr (Except.ok.inj (he.symm.trans parse_quoted))

theorem isFragment_moves_string {e : Expression}
    (h : IsFragment .backquote "\x60dirname($A)\x60/b".toList e) :
    e = .operation .dirname [.access "A".toList .plain] := by
  obtain ⟨segments, f, hs, hf, he⟩ := h
  obtain rfl := Option.some.inj (ofTemplate_moves_string.symm.trans hs)
  simp only [stringSegments, List.mem_cons, Segment.fragment.injEq, reduceCtorEq,
    List.not_mem_nil, or_false] at hf
  subst hf
  exact Except.ok.inj (he.symm.trans parse_dirname)

theorem mentions_moves {usage : Usage} {name : Text} (h : Mentions .percent moves usage name) :
    usage = .items ∧ name = "A".toList := by
  obtain ⟨e, he, hm⟩ := h
  have access {usage name} (h : (Expression.access "A".toList .plain).Mentions usage name) :
      usage = .items ∧ name = "A".toList := by
    cases h
    exact ⟨rfl, rfl⟩
  rcases isFragment_moves he with rfl | rfl
  · exact access hm
  · cases hm with
    | quoted fragment mentions =>
      obtain rfl := isFragment_moves_string fragment
      cases mentions with
      | argument one mem mentions =>
        obtain rfl := List.mem_singleton.mp mem
        exact access mentions

theorem expand_moves : expand bareHost [("A".toList, .list moved)] .percent none moves =
    .ok (.many ["mv x/a x/b".toList, "mv y/a y/b".toList]) := by
  have hstring : expand bareHost [("A".toList, .list moved)] .backquote none
      "\x60dirname($A)\x60/b".toList = .ok (.many ["x/b".toList, "y/b".toList]) := by
    rw [expand_eq]
    simp only [expandWith, ofTemplate_moves_string, stringSegments, pieces, fragmentPiece_eq,
      parse_dirname]
    rfl
  rw [expand_eq]
  simp only [expandWith, ofTemplate_moves, moveSegments, pieces, fragmentPiece_eq, parse_access,
    parse_quoted, Except.mapError, ok_bind, Expression.kind, Expression.evaluate_quoted, hstring]
  rfl

theorem expand_broadcast_moves :
    ∃ c : Nat → Text, (∀ i < 2, expand bareHost [("A".toList, .text (moved.getD i []))]
        .percent none moves = .ok (.single (c i))) ∧
      ["mv x/a x/b".toList, "mv y/a y/b".toList] = (List.range 2).map c := by
  have hlist : ∀ list, Bindings.get? [("A".toList, .list moved)] "A".toList = some (.list list) →
      list.length = 2 := by
    intro list h
    obtain rfl : moved = list := Value.list.inj (Option.some.inj h)
    rfl
  have hb : Broadcasts [("A".toList, .list moved)] 2 (Mentions .percent moves) := by
    refine ⟨fun usage name list hm _ => (mentions_moves hm).1, fun usage name list hm hl => ?_⟩
    obtain ⟨-, rfl⟩ := mentions_moves hm
    exact hlist list hl
  have hr : ∀ i < 2, IsRow [("A".toList, .list moved)] [("A".toList, .text (moved.getD i []))] i
      (Mentions .percent moves) := by
    intro i _ usage name hm
    obtain ⟨-, rfl⟩ := mentions_moves hm
    rfl
  obtain ⟨-, h⟩ := expand_broadcast (by decide) hb hr
  obtain ⟨c, hc, hreads, -⟩ := h _ expand_moves
  refine ⟨c, hc, hreads ?_⟩
  exact ⟨_, ⟨_, _, ofTemplate_moves, by simp [moveSegments], parse_access⟩, .access rfl⟩

end Template
end Countermand

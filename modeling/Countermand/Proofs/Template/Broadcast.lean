import Countermand.Proofs.Template.Nesting

/-! Lists that are used item by item. Where every list that a template mentions has `n` items, the
values in it are text or lists of `n` items, and they are lists just if a list was read. -/
namespace Countermand
open Results

/-- The lists among the names that are mentioned have `n` items and are used item by item. -/
structure Broadcasts (b : Bindings) (n : Nat) (mentions : Usage → Text → Prop) : Prop where
  items : ∀ usage name list, mentions usage name → b.get? name = some (.list list) →
    usage = .items
  width : ∀ usage name list, mentions usage name → b.get? name = some (.list list) →
    list.length = n

section
variable {b : Bindings} {n : Nat} {mentions mentions' : Usage → Text → Prop}

theorem Broadcasts.mono (h : Broadcasts b n mentions)
    (hm : ∀ usage name, mentions' usage name → mentions usage name) :
    Broadcasts b n mentions' where
  items usage name list hn := h.items usage name list (hm usage name hn)
  width usage name list hn := h.width usage name list (hm usage name hn)

theorem Broadcasts.ne_list (h : Broadcasts b n mentions) {name : Text}
    (hm : mentions .whole name) (list : List Text) : b.get? name ≠ some (.list list) :=
  fun hl => nomatch h.items _ _ _ hm hl

end

namespace Expression

variable {host : Host} {b row : Bindings} {n i : Nat}

/-- The evaluation of an expression comes to a name that is bound to a list. Conditions are left
out: where lists are used item by item, a condition has none. -/
inductive ReadsList (host : Host) (b : Bindings) : Expression → Prop
  | access {name : Text} {spread : Spread} {items : List Text}
    (list : b.get? name = some (.list items)) : ReadsList host b (.access name spread)
  | quoted {body : Text} {e : Expression} (fragment : Template.IsFragment .backquote body e)
    (reads : ReadsList host b e) : ReadsList host b (.quoted body)
  | yes {condition yes : Expression} {no : Option Expression} {v : Evaluated}
    (value : condition.evaluate host b = .ok v) (truthy : v.isTruthy = true)
    (reads : ReadsList host b yes) : ReadsList host b (.choice condition yes no)
  | no {condition yes no : Expression} {v : Evaluated}
    (value : condition.evaluate host b = .ok v) (falsy : v.isTruthy = false)
    (reads : ReadsList host b no) : ReadsList host b (.choice condition yes (some no))
  | argument {op : Operation} {arguments : List Expression} {e : Expression}
    (mem : e ∈ arguments) (reads : ReadsList host b e) : ReadsList host b (.operation op arguments)

theorem ReadsList.mentions {e : Expression} (h : e.ReadsList host b) :
    ∃ usage name items, e.Mentions usage name ∧ b.get? name = some (.list items) := by
  induction h with
  | @access name spread items list =>
    cases spread with
    | plain => exact ⟨_, name, items, .access, list⟩
    | joined delimiter => exact ⟨_, name, items, .spread, list⟩
  | quoted fragment _ ih =>
    obtain ⟨_, name, items, hm, hl⟩ := ih
    exact ⟨_, name, items, .quoted fragment hm, hl⟩
  | yes _ _ _ ih =>
    obtain ⟨_, name, items, hm, hl⟩ := ih
    exact ⟨_, name, items, .yes hm, hl⟩
  | no _ _ _ ih =>
    obtain ⟨_, name, items, hm, hl⟩ := ih
    exact ⟨_, name, items, .no hm, hl⟩
  | argument mem _ ih =>
    obtain ⟨_, name, items, hm, hl⟩ := ih
    obtain ⟨usage, hm⟩ := (IsPart.argument mem).mentions hm
    exact ⟨usage, name, items, hm, hl⟩

theorem readsList_choice_of_truthy {condition yes : Expression} {no : Option Expression}
    {c : Evaluated} (hc : condition.evaluate host b = .ok c) (ht : c.isTruthy = true) :
    (choice condition yes no).ReadsList host b ↔ yes.ReadsList host b := by
  constructor
  · intro h
    cases h with
    | yes _ _ reads => exact reads
    | no value falsy =>
      obtain rfl := Except.ok.inj (hc.symm.trans value)
      simp [ht] at falsy
  · exact .yes hc ht

theorem readsList_choice_of_falsy {condition : Expression} (yes : Expression)
    (no : Option Expression) {c : Evaluated} (hc : condition.evaluate host b = .ok c)
    (hf : c.isTruthy = false) :
    (choice condition yes no).ReadsList host b ↔ ∃ e ∈ no, e.ReadsList host b := by
  constructor
  · intro h
    cases h with
    | yes value truthy =>
      obtain rfl := Except.ok.inj (hc.symm.trans value)
      simp [hf] at truthy
    | no _ _ reads => exact ⟨_, rfl, reads⟩
  · rintro ⟨e, rfl, reads⟩
    exact .no hc hf reads

theorem readsList_quoted {body : Text} :
    (quoted body).ReadsList host b ↔
      ∃ e, Template.IsFragment .backquote body e ∧ e.ReadsList host b := by
  constructor
  · intro h
    cases h with
    | quoted fragment reads => exact ⟨_, fragment, reads⟩
  · rintro ⟨e, fragment, reads⟩
    exact .quoted fragment reads

theorem readsList_operation (op : Operation) (e : Expression) :
    (operation op [e]).ReadsList host b ↔ e.ReadsList host b := by
  constructor
  · intro h
    cases h with
    | argument mem reads =>
      obtain rfl := List.mem_singleton.mp mem
      exact reads
  · exact .argument (List.mem_singleton_self e)

/-- A value is a list of `n` items just if a list was read; a single item counts as text inside
of strings. -/
def IsWide (n : Nat) (reads : Prop) : Evaluated → Prop
  | .list items => items.length = n ∧ reads
  | _ => reads → n = 1

theorem IsWide.congr {reads reads' : Prop} {v : Evaluated} (h : IsWide n reads v)
    (hr : reads ↔ reads') : IsWide n reads' v := by
  rwa [← propext hr]

theorem IsWide.eq_one {reads : Prop} {v : Evaluated} (h : IsWide n reads v)
    (hv : ∀ items, v ≠ .list items) : reads → n = 1 := by
  cases v with
  | list items => exact absurd rfl (hv items)
  | _ => exact h

theorem isWide_of_ne_list {v : Evaluated} {reads : Prop} (h : ∀ items, v ≠ .list items)
    (hr : ¬reads) : IsWide n reads v := by
  cases v with
  | list items => exact absurd rfl (h items)
  | _ => exact fun hreads => absurd hreads hr

/-- Without a list among the names mentioned no list is read. -/
theorem not_readsList {e : Expression} (hb : Broadcasts b n e.Mentions)
    (hm : ∀ usage name, e.Mentions usage name → e.Mentions .whole name) :
    ¬e.ReadsList host b := by
  intro hreads
  obtain ⟨usage, name, items, hname, hl⟩ := hreads.mentions
  exact hb.ne_list (hm usage name hname) items hl

theorem whole_of_join {arguments : List Expression} (usage : Usage) (name : Text)
    (h : (operation .join arguments).Mentions usage name) :
    (operation .join arguments).Mentions .whole name := by
  cases h with
  | argument one => exact absurd rfl one
  | joined mem mentions => exact .joined mem mentions

theorem whole_of_spread {op : Operation} {x : Text} {delimiter : Option Text} (usage : Usage)
    (name : Text) (h : (operation op [.access x (.joined delimiter)]).Mentions usage name) :
    (operation op [.access x (.joined delimiter)]).Mentions .whole name := by
  cases h with
  | argument one mem mentions =>
    obtain rfl := List.mem_singleton.mp mem
    cases mentions with
    | spread => exact .argument one mem .spread
  | joined mem mentions => exact .joined mem mentions

/-- A join uses its arguments as a whole. Any other operation has one argument, which is a name
that is spread, or is used item by item. -/
theorem operation_cases {op : Operation} {arguments : List Expression}
    (hw : (operation op arguments).WellFormed) :
    op = .join ∨ op ≠ .join ∧ ∃ e, arguments = [e] ∧
      ((∃ name delimiter, e = .access name (.joined delimiter)) ∨
        ∀ name delimiter, e ≠ .access name (.joined delimiter)) := by
  by_cases hop : op = .join
  · exact .inl hop
  · cases hw with
    | operation arity =>
      have harity : op.arity = 1 := by cases op <;> simp_all [Operation.arity]
      obtain ⟨e, he⟩ := List.length_eq_one_iff.mp (arity.trans harity)
      refine .inr ⟨hop, e, he, ?_⟩
      by_cases hspread : ∃ name delimiter, e = .access name (.joined delimiter)
      · exact .inl hspread
      · exact .inr fun name delimiter h => hspread ⟨name, delimiter, h⟩

theorem lookup_eq_list {name : Text} {items : List Text} :
    lookup b name = .list items ↔ b.get? name = some (.list items) := by
  unfold lookup
  split <;> simp_all

theorem evaluateName_eq {name : Text} {spread : Spread}
    (h : spread = .plain ∨ ∀ items, b.get? name ≠ some (.list items)) :
    evaluateName b name spread = .ok (lookup b name) := by
  unfold evaluateName
  split
  · rename_i items delimiter hl
    rcases h with h | h
    · simp at h
    · exact absurd (lookup_eq_list.mp hl) (h items)
  · rfl

theorem ne_list_of_conditional {e : Expression} (hk : e.kind = .conditional) {v : Evaluated}
    (hv : e.evaluate host b = .ok v) (items : List Text) : v ≠ .list items := by
  rw [evaluate_eq] at hv
  obtain ⟨holds, rfl⟩ := exists_truth_of_conditional hk hv
  simp

theorem ne_list_of_join {arguments : List Expression} {v : Evaluated}
    (hv : (operation .join arguments).evaluate host b = .ok v) (items : List Text) :
    v ≠ .list items := by
  rw [evaluate_eq, evaluateWith] at hv
  obtain ⟨values, -, hv⟩ := bind_eq_ok.mp hv
  simp only [↓reduceIte, join] at hv
  split at hv
  · obtain rfl := Except.ok.inj hv
    simp
  · simp at hv

theorem operate_list {op : Operation} {e : Expression}
    (he : ∀ name delimiter, e ≠ .access name (.joined delimiter)) (items : List Text) :
    operate host op (some e) [.list items] = .ok (.list (items.map (apply host op))) := by
  simp only [operate]
  split
  · rename_i name delimiter h
    exact absurd (Option.some.inj h) (he name delimiter)
  · rfl

theorem operate_of_ne_list {op : Operation} {first? : Option Expression} {v : Evaluated}
    (h : ∀ items, v ≠ .list items) :
    operate host op first? [v] = .ok (.text (apply host op v.items.flatten)) := by
  cases v with
  | list items => exact absurd rfl (h items)
  | _ => rfl

theorem ne_list_of_spread {op : Operation} {name : Text} {delimiter : Option Text}
    (hn : ∀ items, b.get? name ≠ some (.list items)) {v : Evaluated}
    (hv : (operation op [.access name (.joined delimiter)]).evaluate host b = .ok v)
    (items : List Text) : v ≠ .list items := by
  by_cases hop : op = .join
  · subst hop
    exact ne_list_of_join hv items
  · rw [evaluate_eq, evaluateWith] at hv
    simp only [evaluateArguments, pure_eq_ok, ok_bind, if_neg hop] at hv
    cases hl : lookup b name with
    | list list => exact absurd (lookup_eq_list.mp hl) (hn list)
    | _ =>
      simp only [hl, operate] at hv
      obtain rfl := Except.ok.inj hv
      simp

theorem isWide_lookup {mentions : Usage → Text → Prop} (hb : Broadcasts b n mentions)
    {usage : Usage} {name : Text} (hm : mentions usage name) (spread : Spread) :
    IsWide n (ReadsList host b (.access name spread)) (lookup b name) := by
  cases hl : lookup b name with
  | list items =>
    have hv := lookup_eq_list.mp hl
    exact ⟨hb.width _ _ _ hm hv, .access hv⟩
  | _ =>
    rintro ⟨hv⟩
    simp [lookup_eq_list.mpr hv] at hl

/-- An operation that is done item by item keeps the width of its argument. -/
theorem isWide_operation {op : Operation} (hop : op ≠ .join) {e : Expression}
    (he : ∀ name delimiter, e ≠ .access name (.joined delimiter))
    (hwide : ∀ w, e.evaluate host b = .ok w → IsWide n (e.ReadsList host b) w) {v : Evaluated}
    (hv : (operation op [e]).evaluate host b = .ok v) :
    IsWide n ((operation op [e]).ReadsList host b) v := by
  rw [evaluate_operation hop he] at hv
  obtain ⟨w, hval, hv⟩ := bind_eq_ok.mp hv
  have hw := (hwide w hval).congr (readsList_operation op e).symm
  by_cases hlist : ∃ items, w = .list items
  · obtain ⟨items, rfl⟩ := hlist
    rw [operate_list he] at hv
    obtain rfl := Except.ok.inj hv
    exact ⟨by simpa using hw.1, hw.2⟩
  · have hne : ∀ items, w ≠ .list items := fun items h => hlist ⟨items, h⟩
    rw [operate_of_ne_list hne] at hv
    obtain rfl := Except.ok.inj hv
    exact hw.eq_one hne

theorem evaluate_isWide_of_strings {e : Expression} (hw : e.WellFormed)
    (hb : Broadcasts b n e.Mentions)
    (hs : ∀ body, .quoted body ∈ e.spelling → Broadcasts b n (Template.Mentions .backquote body) →
      ∀ x, Template.expand host b .backquote none body = .ok x →
        IsWide n (∃ e, Template.IsFragment .backquote body e ∧ e.ReadsList host b) x.evaluated)
    {v : Evaluated} (hv : e.evaluate host b = .ok v) : IsWide n (e.ReadsList host b) v := by
  induction e using induction_on_parts generalizing v with
  | step e ih =>
    -- A part in whose place a list is used item by item is as wide as its own reading.
    have part {p : Expression} (hp : p.IsPart e)
        (hm : ∀ usage name, p.Mentions usage name → e.Mentions usage name) {v : Evaluated}
        (hv : p.evaluate host b = .ok v) : IsWide n (p.ReadsList host b) v :=
      ih p hp (hp.wellFormed hw) (hb.mono hm) (fun body hbody => hs body (hp.mem_spelling hbody)) hv
    cases e with
    | access name spread =>
      rw [evaluate_eq, evaluateWith] at hv
      cases spread with
      | plain =>
        rw [evaluateName_eq (.inl rfl)] at hv
        obtain rfl := Except.ok.inj hv
        exact isWide_lookup hb .access .plain
      | joined delimiter =>
        rw [evaluateName_eq (.inr (hb.ne_list .spread))] at hv
        obtain rfl := Except.ok.inj hv
        exact isWide_lookup hb .spread (.joined delimiter)
    | literal body =>
      rw [evaluate_eq, evaluateWith] at hv
      obtain rfl := Except.ok.inj hv
      intro hreads
      cases hreads
    | quoted body =>
      rw [evaluate_quoted] at hv
      obtain ⟨x, hx, rfl⟩ := map_eq_ok.mp hv
      have hstring : Broadcasts b n (Template.Mentions .backquote body) := by
        refine hb.mono fun usage name hmentions => ?_
        obtain ⟨e, he, hm⟩ := hmentions
        exact .quoted he hm
      exact (hs body (by simp [spelling]) hstring x hx).congr readsList_quoted.symm
    | choice condition yes no =>
      rw [evaluate_choice] at hv
      obtain ⟨c, hc, hv⟩ := bind_eq_ok.mp hv
      by_cases ht : c.isTruthy = true
      · rw [if_pos ht] at hv
        exact (part .yes (fun _ _ => .yes) hv).congr (readsList_choice_of_truthy hc ht).symm
      · rw [if_neg ht] at hv
        have hreads := readsList_choice_of_falsy yes no hc (Bool.eq_false_iff.mpr ht)
        cases no with
        | none =>
          obtain rfl := Except.ok.inj hv
          exact isWide_of_ne_list (by simp) (by simp [hreads])
        | some no =>
          exact (part .no (fun _ _ => .no) hv).congr (by simp [hreads])
    | existence negated name chain =>
      refine isWide_of_ne_list (ne_list_of_conditional rfl hv) fun hreads => ?_
      cases hreads
    | operation op arguments =>
      rcases operation_cases hw with rfl | ⟨hop, e, rfl, ⟨name, delimiter, rfl⟩ | he⟩
      · exact isWide_of_ne_list (ne_list_of_join hv) (not_readsList hb whole_of_join)
      · have hn := hb.ne_list (.argument hop (List.mem_singleton_self _) .spread)
        exact isWide_of_ne_list (ne_list_of_spread hn hv) (not_readsList hb whole_of_spread)
      · have hmem := List.mem_singleton_self e
        exact isWide_operation hop he
          (fun w hw => part (.argument hmem) (fun _ _ => .argument hop hmem) hw) hv
    | check negated k arguments chain =>
      refine isWide_of_ne_list (ne_list_of_conditional rfl hv) fun hreads => ?_
      cases hreads

end Expression

namespace Template

def Piece.ofValue : Evaluated → Piece
  | .text body => .text body
  | .list items => .list items
  | .truth holds => .text (toString holds).toList

def Piece.textAt (i : Nat) : Piece → Text
  | .text body => body
  | .list items => items.getD i []

variable {host : Host} {b row : Bindings} {n i : Nat}

theorem textAt_of_width?_eq_none {p : Piece} (h : p.width? = none) (i j : Nat) :
    p.textAt i = p.textAt j := by
  cases p with
  | text body => rfl
  | list items => simp [Piece.width?] at h

theorem fragmentPiece_eq (f : Text) :
    fragmentPiece host b (expand host b .backquote none) f = (do
      let e ← (Expression.parse (Text.trim f)).mapError (.unreadable (Text.trim f))
      match e.kind with
      | .conditional => return none
      | .value => return some (.ofValue (← e.evaluate host b))) := by
  simp only [fragmentPiece, ← Expression.evaluate_eq]
  cases Expression.parse (Text.trim f) with
  | error fault => rfl
  | ok e =>
    simp only [Except.mapError, ok_bind]
    cases e.kind with
    | conditional => rfl
    | value =>
      cases e.evaluate host b with
      | error fault => rfl
      | ok v => cases v <;> rfl

theorem map_getD_range (items : List Text) :
    (List.range items.length).map (fun i => items.getD i []) = items := by
  refine List.ext_getElem (by simp) fun k hk _ => ?_
  have hk : k < items.length := by simpa using hk
  simp [hk]

theorem rows_eq {ps : List Piece} (h : ∀ p ∈ ps, ∀ w, p.width? = some w → w = n) :
    rows n ps = (List.range n).map fun i => ps.flatMap (Piece.textAt i) := by
  induction ps with
  | nil => simp [rows, List.map_const']
  | cons p ps ih =>
    have ih := ih fun q hq => h q (List.mem_cons_of_mem p hq)
    have hcolumn : p.column n = (List.range n).map fun i => p.textAt i := by
      cases p with
      | text body => simp [Piece.column, Piece.textAt, List.map_const']
      | list items =>
        obtain rfl : items.length = n := h (.list items) (by simp) _ rfl
        exact (map_getD_range items).symm
    change List.zipWith (· ++ ·) (p.column n) (rows n ps) = _
    rw [hcolumn, ih]
    simp [List.zipWith_map, List.zipWith_self]

theorem broadcast_eq {ps : List Piece} (h : ∀ p ∈ ps, ∀ w, p.width? = some w → w = n) :
    broadcast ps = .ok ((List.range (if ∀ p ∈ ps, p.width? = none then 1 else n)).map
      fun i => ps.flatMap (Piece.textAt i)) := by
  have hwidths : ∀ w ∈ ps.filterMap Piece.width?, w = n := by
    intro w hw
    obtain ⟨p, hp, hw⟩ := List.mem_filterMap.mp hw
    exact h p hp w hw
  by_cases hnone : ∀ p ∈ ps, p.width? = none
  · have hempty : ps.filterMap Piece.width? = [] := List.filterMap_eq_nil_iff.mpr hnone
    simp only [broadcast, hempty]
    rw [if_pos hnone, rows_eq fun p hp w hw => by simp [hnone p hp] at hw]
  · rw [if_neg hnone]
    cases hl : ps.filterMap Piece.width? with
    | nil => exact absurd (List.filterMap_eq_nil_iff.mp hl) hnone
    | cons width widths =>
      rw [hl] at hwidths
      obtain rfl : width = n := hwidths width (by simp)
      have hfind : widths.find? (· ≠ width) = none := by
        simpa using fun w hw => hwidths w (List.mem_cons_of_mem _ hw)
      simp only [broadcast, hl, hfind, rows_eq h]

theorem broadcast_row (ps : List Piece) (i : Nat) :
    broadcast (ps.map fun p => .text (p.textAt i)) = .ok [ps.flatMap (Piece.textAt i)] := by
  have hnone : ∀ p ∈ ps.map fun p => Piece.text (p.textAt i), p.width? = none := by
    intro p hp
    obtain ⟨q, -, rfl⟩ := List.mem_map.mp hp
    rfl
  rw [broadcast_eq (n := 1) fun p hp w hw => by simp [hnone p hp] at hw]
  simp only [if_pos hnone, List.range_one, List.map_cons, List.map_nil, List.flatMap_map]
  rfl

theorem gather_eq (n : Nat) (f : Nat → Text) :
    gather none ((List.range n).map f) =
      if n = 1 then .single (f 0) else .many ((List.range n).map f) := by
  match n with
  | 0 => rfl
  | 1 => rfl
  | n + 2 => simp [gather, List.range_succ_eq_map]

/-- The evaluation of a template comes to a name that is bound to a list. -/
def ReadsList (host : Host) (b : Bindings) (m : Markers) (t : Text) : Prop :=
  ∃ e, IsFragment m t e ∧ e.ReadsList host b

/-- Pieces are lists of `n` items just if a list was read; a single item may count as text. -/
structure PiecesWide (n : Nat) (reads : Prop) (ps : List Piece) : Prop where
  width : ∀ p ∈ ps, ∀ w, p.width? = some w → w = n ∧ reads
  narrow : reads → (∀ p ∈ ps, p.width? = none) → n = 1

theorem PiecesWide.congr {reads reads' : Prop} {ps : List Piece} (h : PiecesWide n reads ps)
    (hr : reads ↔ reads') : PiecesWide n reads' ps := by
  rwa [← propext hr]

theorem PiecesWide.cons {reads reads' : Prop} {v : Evaluated} {ps : List Piece}
    (hv : Expression.IsWide n reads v) (hps : PiecesWide n reads' ps) :
    PiecesWide n (reads ∨ reads') (.ofValue v :: ps) where
  width p hp w hw := by
    rcases List.mem_cons.mp hp with rfl | hp
    · cases v with
      | list items =>
        obtain rfl := Option.some.inj hw
        exact ⟨hv.1, .inl hv.2⟩
      | _ => simp [Piece.ofValue, Piece.width?] at hw
    · obtain ⟨hn, hreads⟩ := hps.width p hp w hw
      exact ⟨hn, .inr hreads⟩
  narrow := by
    rintro (hreads | hreads) hnone
    · refine hv.eq_one ?_ hreads
      rintro items rfl
      simpa [Piece.ofValue, Piece.width?] using hnone _ (List.mem_cons_self)
    · exact hps.narrow hreads fun p hp => hnone p (List.mem_cons_of_mem _ hp)

def SegmentsRead (host : Host) (b : Bindings) (segments : List Segment) : Prop :=
  ∃ f e, .fragment f ∈ segments ∧ Expression.parse (Text.trim f) = .ok e ∧ e.ReadsList host b

theorem segmentsRead_literal {text : Text} {segments : List Segment} :
    SegmentsRead host b (.literal text :: segments) ↔ SegmentsRead host b segments := by
  simp [SegmentsRead]

theorem segmentsRead_fragment {f : Text} {e : Expression}
    (he : Expression.parse (Text.trim f) = .ok e) (segments : List Segment) :
    SegmentsRead host b (.fragment f :: segments) ↔
      e.ReadsList host b ∨ SegmentsRead host b segments := by
  constructor
  · rintro ⟨f', e', hf, he', hr⟩
    rcases List.mem_cons.mp hf with hf | hf
    · obtain rfl := Segment.fragment.inj hf
      obtain rfl := Except.ok.inj (he.symm.trans he')
      exact .inl hr
    · exact .inr ⟨f', e', hf, he', hr⟩
  · rintro (hr | ⟨f', e', hf, he', hr⟩)
    · exact ⟨f, e, by simp, he, hr⟩
    · exact ⟨f', e', by simp [hf], he', hr⟩

theorem segmentsRead_iff {m : Markers} {t : Text} {segments : List Segment}
    (hs : Segment.ofTemplate m t = some segments) :
    SegmentsRead host b segments ↔ ReadsList host b m t := by
  constructor
  · rintro ⟨f, e, hf, he, hr⟩
    exact ⟨e, ⟨segments, f, hs, hf, he⟩, hr⟩
  · rintro ⟨e, ⟨segments', f, hs', hf, he⟩, hr⟩
    obtain rfl := Option.some.inj (hs.symm.trans hs')
    exact ⟨f, e, hf, he, hr⟩

theorem pieces_isWide {segments : List Segment} {ps : List Piece}
    (h : pieces host b (expand host b .backquote none) segments = .ok ps)
    (hs : ∀ f e, .fragment f ∈ segments → Expression.parse (Text.trim f) = .ok e →
      ∀ v, e.evaluate host b = .ok v → Expression.IsWide n (e.ReadsList host b) v) :
    PiecesWide n (SegmentsRead host b segments) ps := by
  induction segments generalizing ps with
  | nil =>
    obtain rfl := Except.ok.inj h
    exact ⟨by simp, by simp [SegmentsRead]⟩
  | cons s segments ih =>
    have hrest := fun f e hf => hs f e (List.mem_cons_of_mem s hf)
    cases s with
    | literal text =>
      obtain ⟨more, hmore, h⟩ := bind_eq_ok.mp h
      obtain rfl := Except.ok.inj h
      have htext : Expression.IsWide n False (.text text) := False.elim
      exact (PiecesWide.cons htext (ih hmore hrest)).congr (by simp [segmentsRead_literal])
    | fragment f =>
      obtain ⟨piece?, hpiece, h⟩ := bind_eq_ok.mp h
      obtain ⟨more, hmore, h⟩ := bind_eq_ok.mp h
      obtain rfl := Except.ok.inj h
      rw [fragmentPiece_eq] at hpiece
      obtain ⟨e, he, hpiece⟩ := bind_eq_ok.mp hpiece
      replace he := mapError_eq_ok.mp he
      cases hk : e.kind with
      | conditional =>
        simp only [hk] at hpiece
        obtain rfl := Except.ok.inj hpiece
        have hnot : ¬e.ReadsList host b := by
          intro hr
          cases hr <;> simp [Expression.kind] at hk
        refine (ih hmore hrest).congr ?_
        rw [segmentsRead_fragment he, or_iff_right hnot]
      | value =>
        simp only [hk] at hpiece
        obtain ⟨v, hv, hpiece⟩ := bind_eq_ok.mp hpiece
        obtain rfl := Except.ok.inj hpiece
        exact (PiecesWide.cons (hs f e (by simp) he v hv) (ih hmore hrest)).congr
          (segmentsRead_fragment he segments).symm

theorem expand_isWide {m : Markers} {t : Text} (hb : Broadcasts b n (Mentions m t)) {x : Expanded}
    (hx : expand host b m none t = .ok x) :
    Expression.IsWide n (ReadsList host b m t) x.evaluated := by
  induction hlen : t.length using Nat.strongRecOn generalizing m t x with
  | ind k ih =>
    subst hlen
    rw [expand_eq] at hx
    simp only [expandWith] at hx
    split at hx
    · simp at hx
    · rename_i segments hsegments
      obtain ⟨ps, hps, hx⟩ := bind_eq_ok.mp hx
      have hwide : PiecesWide n (SegmentsRead host b segments) ps := by
        refine pieces_isWide hps fun f e hf he v hv => ?_
        have hfragment : IsFragment m t e := ⟨segments, f, hsegments, hf, he⟩
        refine Expression.evaluate_isWide_of_strings hfragment.wellFormed
          (hb.mono fun usage name hm => ⟨e, hfragment, hm⟩) ?_ hv
        intro body hbody hb' x hx
        exact ih _ (hfragment.length_lt hbody) hb' hx rfl
      obtain ⟨commands, hcommands, hx⟩ := bind_eq_ok.mp hx
      obtain rfl := Except.ok.inj hx
      rw [broadcast_eq fun p hp w hw => (hwide.width p hp w hw).1] at hcommands
      obtain rfl := Except.ok.inj hcommands
      rw [gather_eq]
      refine Expression.IsWide.congr ?_ (segmentsRead_iff hsegments)
      by_cases hnone : ∀ p ∈ ps, p.width? = none
      · rw [if_pos hnone, if_pos rfl]
        exact fun hr => hwide.narrow hr hnone
      · rw [if_neg hnone]
        by_cases hn : n = 1
        · rw [if_pos hn]
          exact fun _ => hn
        · rw [if_neg hn]
          have hlist : ∃ p ∈ ps, p.width? ≠ none := by simpa using hnone
          obtain ⟨p, hp, hw⟩ := hlist
          obtain ⟨w, hw⟩ := Option.ne_none_iff_exists'.mp hw
          exact ⟨by simp, (hwide.width p hp w hw).2⟩

end Template

end Countermand

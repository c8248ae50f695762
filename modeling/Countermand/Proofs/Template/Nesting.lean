import Countermand.Proofs.Expression.Kinds
import Countermand.Proofs.Expression.Soundness
import Countermand.Template.Expansion

/-! Templates inside templates. A string in a fragment is shorter than the template around it, so
that the depth to which strings are expanded never runs out, and an expansion depends only on the
names that the template mentions. -/
namespace Countermand
open Results

theorem Token.length_le_of_mem_scan {column : Nat} {t : Text} {ts : List Token}
    (h : scan column t = .ok ts) {x : Token} (hx : x ∈ ts) :
    x.lexeme.spelling.length ≤ t.length := by
  fun_induction scan column t generalizing ts with
  | case1 =>
    obtain rfl := Except.ok.inj h
    simp at hx
  | case2 column c cs hc ih =>
    have := ih h hx
    simp only [List.length_cons]
    omega
  | case3 => simp at h
  | case4 column c cs hc y rest hy ih =>
    obtain ⟨more, hmore, h⟩ := bind_eq_ok.mp h
    obtain rfl := Except.ok.inj h
    have hlen := congrArg List.length (spelling_append_of_lexeme? hy).1
    rw [List.length_append] at hlen
    rcases List.mem_cons.mp hx with rfl | hx
    · simp only
      omega
    · have := ih hmore hx
      omega

theorem Segment.length_le_of_mem_cut {m : Markers} {escaped : Bool} {rest : Text}
    {segments : List Segment} (h : cut m escaped rest = some segments) {f : Text}
    (hf : .fragment f ∈ segments) : f.length ≤ rest.length := by
  fun_induction cut m escaped rest generalizing segments with
  | case1 =>
    obtain rfl := Option.some.inj h
    simp at hf
  | case2 => simp at h
  | case3 escaped c cs ho body escaped' after hc ih =>
    obtain ⟨more, hmore, rfl⟩ := Option.map_eq_some_iff.mp h
    have hlen := congrArg List.length (append_of_close hc)
    simp only [List.length_append, List.length_drop] at hlen
    rcases List.mem_cons.mp hf with he | hf
    · obtain rfl := Segment.fragment.inj he
      omega
    · have := ih hmore hf
      omega
  | case4 escaped c cs ho ih =>
    obtain ⟨more, hmore, rfl⟩ := Option.map_eq_some_iff.mp h
    have hf : .fragment f ∈ more := by
      cases more with
      | nil => simp [consLiteral] at hf
      | cons s more => cases s <;> simpa [consLiteral] using hf
    have := ih hmore hf
    simp only [List.length_cons]
    omega

namespace Template

/-- An expression stands in one of the fragments of a template. -/
def IsFragment (m : Markers) (t : Text) (e : Expression) : Prop :=
  ∃ segments f, Segment.ofTemplate m t = some segments ∧ .fragment f ∈ segments ∧
    Expression.parse (Text.trim f) = .ok e

theorem IsFragment.length_lt {m : Markers} {t : Text} {e : Expression} (h : IsFragment m t e)
    {body : Text} (hb : .quoted body ∈ e.spelling) : body.length < t.length := by
  obtain ⟨segments, f, hs, hf, he⟩ := h
  obtain ⟨-, ts, hts, hspelling⟩ := Expression.parse_sound he
  rw [← hspelling] at hb
  obtain ⟨x, hx, hbody⟩ := List.mem_map.mp hb
  have hscan := Token.length_le_of_mem_scan hts hx
  have htrim := Text.trim_length_le f
  have hcut := Segment.length_le_of_mem_cut hs hf
  simp only [hbody, Lexeme.spelling, List.length_cons, List.length_append] at hscan
  omega

theorem IsFragment.wellFormed {m : Markers} {t : Text} {e : Expression} (h : IsFragment m t e) :
    e.WellFormed := by
  obtain ⟨_, _, -, -, he⟩ := h
  exact (Expression.parse_sound he).1

end Template

/-- How a list would be used where a name stands: item by item, or as a whole. -/
inductive Usage
  | items | whole
  deriving DecidableEq, Repr

/-- An expression mentions a name, strings inside it included. Only in the branches of choices, in
strings and under operations on one text a list is used item by item. -/
inductive Expression.Mentions : Expression → Usage → Text → Prop
  | access {name : Text} : Mentions (.access name .plain) .items name
  | spread {name : Text} {delimiter : Option Text} :
    Mentions (.access name (.joined delimiter)) .whole name
  | quoted {body : Text} {e : Expression} {usage : Usage} {name : Text}
    (fragment : Template.IsFragment .backquote body e) (mentions : Mentions e usage name) :
    Mentions (.quoted body) usage name
  | condition {condition yes : Expression} {no : Option Expression} {usage : Usage} {name : Text}
    (mentions : Mentions condition usage name) : Mentions (.choice condition yes no) .whole name
  | yes {condition yes : Expression} {no : Option Expression} {usage : Usage} {name : Text}
    (mentions : Mentions yes usage name) : Mentions (.choice condition yes no) usage name
  | no {condition yes no : Expression} {usage : Usage} {name : Text}
    (mentions : Mentions no usage name) : Mentions (.choice condition yes (some no)) usage name
  | existence {negated : Bool} {name : Text} {chain : Option (Connective × Expression)} :
    Mentions (.existence negated name chain) .whole name
  | chain {negated : Bool} {x : Text} {connective : Connective} {right : Expression}
    {usage : Usage} {name : Text} (mentions : Mentions right usage name) :
    Mentions (.existence negated x (some (connective, right))) .whole name
  | argument {op : Operation} {arguments : List Expression} {e : Expression} {usage : Usage}
    {name : Text} (one : op ≠ .join) (mem : e ∈ arguments) (mentions : Mentions e usage name) :
    Mentions (.operation op arguments) usage name
  | joined {arguments : List Expression} {e : Expression} {usage : Usage} {name : Text}
    (mem : e ∈ arguments) (mentions : Mentions e usage name) :
    Mentions (.operation .join arguments) .whole name
  | checked {negated : Bool} {k : Check} {arguments : List Expression}
    {chain : Option (Connective × Expression)} {e : Expression} {usage : Usage} {name : Text}
    (mem : e ∈ arguments) (mentions : Mentions e usage name) :
    Mentions (.check negated k arguments chain) .whole name
  | checkChain {negated : Bool} {k : Check} {arguments : List Expression}
    {connective : Connective} {right : Expression} {usage : Usage} {name : Text}
    (mentions : Mentions right usage name) :
    Mentions (.check negated k arguments (some (connective, right))) .whole name

/-- A template mentions the names that its fragments mention. -/
def Template.Mentions (m : Markers) (t : Text) (usage : Usage) (name : Text) : Prop :=
  ∃ e, IsFragment m t e ∧ e.Mentions usage name

namespace Expression

theorem IsPart.mentions {part e : Expression} (h : part.IsPart e) {usage : Usage} {name : Text}
    (hm : part.Mentions usage name) : ∃ usage', e.Mentions usage' name := by
  cases h with
  | condition => exact ⟨_, .condition hm⟩
  | yes => exact ⟨_, .yes hm⟩
  | no => exact ⟨_, .no hm⟩
  | chain => exact ⟨_, .chain hm⟩
  | @argument op _ _ mem =>
    by_cases hop : op = .join
    · subst hop
      exact ⟨_, .joined mem hm⟩
    · exact ⟨_, .argument hop mem hm⟩
  | checked mem => exact ⟨_, .checked mem hm⟩
  | checkChain => exact ⟨_, .checkChain hm⟩

def Agree (mentions : Usage → Text → Prop) (b b' : Bindings) : Prop :=
  ∀ usage name, mentions usage name → b.get? name = b'.get? name

/-- Two environments, with two ways to expand strings, that an expression cannot tell apart. -/
structure Alike (b b' : Bindings) (nested nested' : Text → Except ExpansionError Expanded)
    (e : Expression) : Prop where
  agree : Agree e.Mentions b b'
  strings : ∀ body, .quoted body ∈ e.spelling →
    Agree (Template.Mentions .backquote body) b b' → nested body = nested' body

variable {host : Host} {b b' : Bindings} {nested nested' : Text → Except ExpansionError Expanded}

theorem Alike.part {part e : Expression} (h : Alike b b' nested nested' e)
    (hp : part.IsPart e) : Alike b b' nested nested' part where
  agree usage name hm := by
    obtain ⟨usage', hm⟩ := hp.mentions hm
    exact h.agree usage' name hm
  strings body hb := h.strings body (hp.mem_spelling hb)

theorem evaluateChain_congr {left : Bool} {chain : Option (Connective × Expression)}
    (h : ∀ link ∈ chain,
      link.2.evaluateWith host b nested = link.2.evaluateWith host b' nested') :
    evaluateChain host b nested left chain = evaluateChain host b' nested' left chain := by
  match chain with
  | none => rfl
  | some (.and, right) => simp only [evaluateChain, h _ rfl]
  | some (.or, right) => simp only [evaluateChain, h _ rfl]

theorem evaluateArguments_congr {arguments : List Expression}
    (h : ∀ e ∈ arguments, e.evaluateWith host b nested = e.evaluateWith host b' nested' ∧
      Agree e.Mentions b b') :
    evaluateArguments host b nested arguments = evaluateArguments host b' nested' arguments := by
  induction arguments with
  | nil => rfl
  | cons e arguments ih =>
    have ih := ih fun e' he => h e' (List.mem_cons_of_mem e he)
    obtain ⟨he, ha⟩ := h e (by simp)
    by_cases hs : ∃ name delimiter, e = .access name (.joined delimiter)
    · obtain ⟨name, delimiter, rfl⟩ := hs
      have hname := ha _ _ (.spread)
      simp only [evaluateArguments, lookup, hname, ih]
    · have hne : ∀ name delimiter, e ≠ .access name (.joined delimiter) :=
        fun name delimiter hn => hs ⟨name, delimiter, hn⟩
      rw [evaluateArguments_cons, evaluateArguments_cons, argumentWith_eq hne, argumentWith_eq hne,
        he, ih]

/-- The value depends on the names mentioned and on the expansions of the strings. -/
theorem evaluateWith_congr (e : Expression) (h : Alike b b' nested nested' e) :
    e.evaluateWith host b nested = e.evaluateWith host b' nested' := by
  induction e using induction_on_parts with
  | step e ih =>
    have hpart := fun part (hp : IsPart part e) => ih part hp (h.part hp)
    have harguments : ∀ arguments, (∀ part ∈ arguments, IsPart part e) →
        evaluateArguments host b nested arguments = evaluateArguments host b' nested' arguments :=
      fun arguments hp => evaluateArguments_congr fun part hm =>
        ⟨hpart part (hp part hm), (h.part (hp part hm)).agree⟩
    cases e with
    | access name spread =>
      have hname : b.get? name = b'.get? name := by
        cases spread with
        | plain => exact h.agree _ _ .access
        | joined delimiter => exact h.agree _ _ .spread
      simp only [evaluateWith, evaluateName, lookup, hname]
    | literal body => rfl
    | quoted body =>
      have hbody : nested body = nested' body := by
        refine h.strings body (by simp [spelling]) ?_
        rintro usage name ⟨e, he, hm⟩
        exact h.agree usage name (.quoted he hm)
      simp only [evaluateWith, hbody]
    | choice condition yes no =>
      have hno : evaluateAlternative host b nested no = evaluateAlternative host b' nested' no := by
        cases no with
        | none => rfl
        | some no => exact hpart no .no
      simp only [evaluateWith, hpart condition .condition, hpart yes .yes, hno]
    | existence negated name chain =>
      have hset : isSet b name = isSet b' name := by
        simp only [isSet, h.agree _ _ .existence]
      have hchain : ∀ left,
          evaluateChain host b nested left chain = evaluateChain host b' nested' left chain := by
        intro left
        refine evaluateChain_congr ?_
        rintro ⟨connective, right⟩ rfl
        exact hpart right .chain
      simp only [evaluateWith, hset, hchain]
    | operation op arguments =>
      simp only [evaluateWith, harguments arguments fun _ hm => .argument hm]
    | check negated k arguments chain =>
      have hchain : ∀ left,
          evaluateChain host b nested left chain = evaluateChain host b' nested' left chain := by
        intro left
        refine evaluateChain_congr ?_
        rintro ⟨connective, right⟩ rfl
        exact hpart right .checkChain
      simp only [evaluateWith, harguments arguments fun _ hm => .checked hm, hchain]

end Expression

namespace Template

variable {host : Host} {b b' : Bindings} {nested nested' : Text → Except ExpansionError Expanded}

theorem fragmentPiece_congr {f : Text}
    (h : ∀ e, Expression.parse (Text.trim f) = .ok e →
      e.evaluateWith host b nested = e.evaluateWith host b' nested') :
    fragmentPiece host b nested f = fragmentPiece host b' nested' f := by
  simp only [fragmentPiece]
  cases he : Expression.parse (Text.trim f) with
  | error fault => rfl
  | ok e => simp only [Except.mapError, ok_bind, h e he]

theorem pieces_congr {segments : List Segment}
    (h : ∀ f, .fragment f ∈ segments →
      fragmentPiece host b nested f = fragmentPiece host b' nested' f) :
    pieces host b nested segments = pieces host b' nested' segments := by
  induction segments with
  | nil => rfl
  | cons s segments ih =>
    have ih := ih fun f hf => h f (List.mem_cons_of_mem s hf)
    cases s with
    | literal text => simp only [pieces, ih]
    | fragment f => simp only [pieces, ih, h f (by simp)]

theorem expandWith_congr {m : Markers} {separator : Option Text} {t : Text}
    (hb : Expression.Agree (Mentions m t) b b')
    (hn : ∀ body, body.length < t.length →
      Expression.Agree (Mentions .backquote body) b b' → nested body = nested' body) :
    expandWith host b nested m separator t = expandWith host b' nested' m separator t := by
  simp only [expandWith]
  cases hs : Segment.ofTemplate m t with
  | none => rfl
  | some segments =>
    have hpieces : pieces host b nested segments = pieces host b' nested' segments := by
      refine pieces_congr fun f hf => fragmentPiece_congr fun e he => ?_
      have hfragment : IsFragment m t e := ⟨segments, f, hs, hf, he⟩
      refine Expression.evaluateWith_congr e ⟨fun usage name hm => ?_, fun body hbody => ?_⟩
      · exact hb usage name ⟨e, hfragment, hm⟩
      · exact hn body (hfragment.length_lt hbody)
    simp only [hpieces]

theorem expandString_nil (depth : Nat) : expandString host b depth [] = .ok (.single []) := by
  cases depth with
  | zero => rfl
  | succ depth =>
    simp [expandString, expandWith, Segment.ofTemplate, Segment.cut, pieces, broadcast, rows,
      Except.mapError, gather]

theorem expandString_eq {d d' : Nat} {body : Text} (h : body.length ≤ d) (h' : body.length ≤ d') :
    expandString host b d body = expandString host b d' body := by
  induction d generalizing d' body with
  | zero =>
    obtain rfl := List.length_eq_zero_iff.mp (Nat.le_zero.mp h)
    rw [expandString_nil, expandString_nil]
  | succ d ih =>
    cases d' with
    | zero =>
      obtain rfl := List.length_eq_zero_iff.mp (Nat.le_zero.mp h')
      rw [expandString_nil, expandString_nil]
    | succ d' =>
      refine expandWith_congr (fun _ _ _ => rfl) fun body' hlt _ => ?_
      exact ih (by omega) (by omega)

/-- The expansion as a recursion of its own: strings expand as templates with backquotes. -/
theorem expand_eq (host : Host) (b : Bindings) (m : Markers) (separator : Option Text) (t : Text) :
    expand host b m separator t =
      expandWith host b (expand host b .backquote none) m separator t := by
  refine expandWith_congr (fun _ _ _ => rfl) fun body hlt _ => ?_
  exact expandString_eq (Nat.le_of_lt hlt) (Nat.le_succ body.length)

theorem expand_congr {m : Markers} {separator : Option Text} {t : Text}
    (h : Expression.Agree (Mentions m t) b b') :
    expand host b m separator t = expand host b' m separator t := by
  induction hlen : t.length using Nat.strongRecOn generalizing m separator t with
  | ind n ih =>
    subst hlen
    rw [expand_eq, expand_eq host b']
    exact expandWith_congr h fun body hlt hbody => ih _ hlt hbody rfl

end Template

namespace Expression

variable {host : Host} {b b' : Bindings}

theorem evaluate_eq (host : Host) (b : Bindings) (e : Expression) :
    e.evaluate host b = e.evaluateWith host b (Template.expand host b .backquote none) :=
  evaluateWith_congr e ⟨fun _ _ _ => rfl,
    fun body _ _ => Template.expandString_eq (Nat.le_refl _) (Nat.le_succ body.length)⟩

theorem evaluate_congr {e : Expression} (h : Agree e.Mentions b b') :
    e.evaluate host b = e.evaluate host b' := by
  rw [evaluate_eq, evaluate_eq]
  exact evaluateWith_congr e ⟨h, fun _ _ hbody => Template.expand_congr hbody⟩

theorem evaluate_quoted (body : Text) :
    (quoted body).evaluate host b =
      Expanded.evaluated <$> Template.expand host b .backquote none body := by
  rw [evaluate_eq, evaluateWith]

theorem evaluate_choice (condition yes : Expression) (no : Option Expression) :
    (choice condition yes no).evaluate host b = (do
      if (← condition.evaluate host b).isTruthy then yes.evaluate host b
      else no.elim (.ok (.text [])) (evaluate host b)) := by
  cases no <;> simp only [evaluate_eq, evaluateWith, evaluateAlternative, Option.elim]

theorem evaluate_operation {op : Operation} (hop : op ≠ .join) {e : Expression}
    (he : ∀ name delimiter, e ≠ .access name (.joined delimiter)) :
    (operation op [e]).evaluate host b = (do
      operate host op (some e) [← e.evaluate host b]) := by
  simp only [evaluate_eq, evaluateWith, evaluateArguments_cons, argumentWith_eq he, if_neg hop]
  cases e.evaluateWith host b (Template.expand host b .backquote none) <;> rfl

end Expression
end Countermand

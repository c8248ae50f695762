import Countermand.Proofs.Session
import Countermand.Proofs.Undoing.Capture

/-! Nothing is run unless it was chosen, and only what was chosen is run. A request leads through
three phases: finding the candidates asks at most the shell for its history, choosing among them
invokes nothing, and running starts the programs of the chosen candidate up to the first failure. -/
namespace Countermand

namespace Text

theorem toLower_eq_y {c : Char} : c.toLower = 'y' ↔ c = 'y' ∨ c = 'Y' := by
  constructor
  · intro h
    by_cases hupper : c.val ≥ 'A'.val ∧ c.val ≤ 'Z'.val
    · right
      have hval : c.val + ('a'.val - 'A'.val) = 'y'.val := by
        rw [← h, Char.toLower, dif_pos hupper]
      apply Char.ext
      have hsum : (c.val + ('a'.val - 'A'.val)) - ('a'.val - 'A'.val) =
          'y'.val - ('a'.val - 'A'.val) := by rw [hval]
      rwa [UInt32.add_sub_cancel] at hsum
    · left
      rwa [Char.toLower, dif_neg hupper] at h
  · rintro (rfl | rfl) <;> decide

end Text

namespace Request
variable {request : Request} {s : Session} {candidates : List Candidate} {candidate : Candidate}
  {line : Text}

/-- An answer that accepts the only candidate: in small letters, nothing or a single y. -/
def Agrees (line : Text) : Prop :=
  (Text.trim line).map Char.toLower = [] ∨ (Text.trim line).map Char.toLower = ['y']

instance : Decidable (Agrees line) := inferInstanceAs (Decidable (_ ∨ _))

theorem agrees_iff :
    Agrees line ↔ Text.trim line = [] ∨ Text.trim line = ['y'] ∨ Text.trim line = ['Y'] := by
  have hy : (Text.trim line).map Char.toLower = ['y'] ↔
      Text.trim line = ['y'] ∨ Text.trim line = ['Y'] := by
    cases Text.trim line with
    | nil => simp
    | cons c rest => simp [Text.toLower_eq_y, or_and_right]
  rw [Agrees, hy, List.map_eq_nil_iff]

/-- An answer that is the number of a line on a menu of `count` lines. -/
def Names (count : Nat) (line : Text) (n : Nat) : Prop :=
  Text.readCount? (Text.trim line) = some n ∧ 1 ≤ n ∧ n ≤ count

def Refuses (line : Text) (candidates : List Candidate) : Prop :=
  (candidates.length = 1 → ¬ Agrees line) ∧
    (2 ≤ candidates.length → ∀ n, ¬ Names candidates.length line n)

/-- An answer that takes a candidate: the only one, or the one with the number that was typed. -/
inductive Picks (line : Text) : List Candidate → Candidate → Prop
  | agreed {candidate : Candidate} : Agrees line → Picks line [candidate] candidate
  | numbered {candidates : List Candidate} {candidate : Candidate} {n : Nat} :
      2 ≤ candidates.length → Names candidates.length line n →
      candidates[n - 1]? = some candidate → Picks line candidates candidate

/-- Nothing is to be run. -/
def Declines (request : Request) (s : Session) (candidates : List Candidate) : Prop :=
  request.dry = true ∨ candidates = [] ∨
    (2 ≤ candidates.length ∧ request.interactive = false) ∨
    (request.interactive = true ∧ ∀ line, s.answer? = some line → Refuses line candidates)

/-- A candidate is to be run. -/
def Chooses (request : Request) (s : Session) (candidates : List Candidate)
    (candidate : Candidate) : Prop :=
  request.dry = false ∧
    ((request.interactive = false ∧ candidates = [candidate]) ∨
      (request.interactive = true ∧
        ∃ line, s.answer? = some line ∧ Picks line candidates candidate))

def settled (request : Request) (s : Session) (candidates : List Candidate) :
    Except Failure Outcome :=
  if candidates = [] then .ok .nothingFound
  else if request.dry = true ∨ request.interactive = false then .ok (.shown candidates)
  else if s.answer? = none then .error .undecodable
  else .ok .nothingSelected

theorem Picks.mem (h : Picks line candidates candidate) : candidate ∈ candidates := by
  cases h with
  | agreed _ => exact List.mem_singleton_self candidate
  | numbered _ _ hget => exact List.mem_of_getElem? hget

theorem Picks.not_refuses (h : Picks line candidates candidate) : ¬ Refuses line candidates := by
  intro hrefuses
  cases h with
  | agreed hagrees => exact hrefuses.1 rfl hagrees
  | numbered hlength hnames _ => exact hrefuses.2 hlength _ hnames

theorem Picks.unique {other : Candidate} (h : Picks line candidates candidate)
    (ho : Picks line candidates other) : candidate = other := by
  cases h with
  | agreed _ =>
    cases ho with
    | agreed _ => rfl
    | numbered hlength _ _ => simp at hlength
  | numbered hlength hnames hget =>
    cases ho with
    | agreed _ => simp at hlength
    | numbered _ hnames' hget' =>
      obtain rfl := Option.some.inj (hnames.1.symm.trans hnames'.1)
      exact Option.some.inj (hget.symm.trans hget')

theorem exists_picks (hne : candidates ≠ []) (h : ¬ Refuses line candidates) :
    ∃ candidate, Picks line candidates candidate := by
  match candidates, hne with
  | [candidate], _ =>
    refine ⟨candidate, .agreed ?_⟩
    by_contra hagrees
    exact h ⟨fun _ => hagrees, fun hlength => by simp at hlength⟩
  | first :: second :: rest, _ =>
    have hnames : ∃ n, Names (first :: second :: rest).length line n := by
      by_contra hnone
      exact h ⟨fun hlength => by simp at hlength, fun _ => not_exists.mp hnone⟩
    obtain ⟨n, hn⟩ := hnames
    have hlt : n - 1 < (first :: second :: rest).length := by
      have := hn.2
      omega
    exact ⟨_, .numbered (by simp) hn (List.getElem?_eq_getElem hlt)⟩

theorem Chooses.mem (h : request.Chooses s candidates candidate) : candidate ∈ candidates := by
  rcases h.2 with ⟨_, rfl⟩ | ⟨_, line, _, hpicks⟩
  · exact List.mem_singleton_self candidate
  · exact hpicks.mem

theorem Chooses.not_declines (h : request.Chooses s candidates candidate) :
    ¬ request.Declines s candidates := by
  obtain ⟨hdry, hchosen⟩ := h
  rintro (hdry' | rfl | ⟨hlength, hasked⟩ | ⟨hasked, hrefuses⟩)
  · simp [hdry] at hdry'
  · have := (show request.Chooses s [] candidate from ⟨hdry, hchosen⟩).mem
    simp at this
  · rcases hchosen with ⟨_, rfl⟩ | ⟨hasked', _⟩
    · simp at hlength
    · simp [hasked] at hasked'
  · rcases hchosen with ⟨hasked', _⟩ | ⟨_, line, hline, hpicks⟩
    · simp [hasked] at hasked'
    · exact hpicks.not_refuses (hrefuses line hline)

theorem Chooses.unique {other : Candidate} (h : request.Chooses s candidates candidate)
    (ho : request.Chooses s candidates other) : candidate = other := by
  rcases h.2 with ⟨hasked, rfl⟩ | ⟨hasked, line, hline, hpicks⟩
  · rcases ho.2 with ⟨_, heq⟩ | ⟨hasked', _⟩
    · exact (List.cons.inj heq).1
    · simp [hasked] at hasked'
  · rcases ho.2 with ⟨hasked', _⟩ | ⟨_, line', hline', hpicks'⟩
    · simp [hasked] at hasked'
    · obtain rfl := Option.some.inj (hline.symm.trans hline')
      exact hpicks.unique hpicks'

theorem settled_ne_ran (candidate : Candidate) :
    request.settled s candidates ≠ .ok (.ran candidate) := by
  unfold settled
  split_ifs <;> simp

/-- Either nothing is to be run, or one candidate is. -/
theorem exists_chooses (h : ¬ request.Declines s candidates) :
    ∃ candidate, request.Chooses s candidates candidate := by
  simp only [Declines, not_or, not_and, not_forall] at h
  obtain ⟨hdry, hne, hseveral, hasked⟩ := h
  have hdry : request.dry = false := by simpa using hdry
  cases hi : request.interactive with
  | false =>
    match candidates, hne, hseveral with
    | [candidate], _, _ => exact ⟨candidate, hdry, .inl ⟨hi, rfl⟩⟩
    | first :: second :: rest, _, hseveral => exact absurd hi (hseveral (by simp))
  | true =>
    obtain ⟨line, hline, hrefuses⟩ := hasked hi
    obtain ⟨candidate, hpicks⟩ := exists_picks hne hrefuses
    exact ⟨candidate, hdry, .inr ⟨hi, line, hline, hpicks⟩⟩

end Request

namespace Dialogue
variable {commands : List Text} {s : Session} {line : Text}

def menu (commands : List Text) : Text :=
  "Please select the command to run (invalid input will run no commands):".toList ++ ['\n'] ++
    numbered 1 commands ++ "selection: ".toList

theorem numbered_append (number : Nat) (commands more : List Text) :
    numbered number (commands ++ more) =
      numbered number commands ++ numbered (number + commands.length) more := by
  induction commands generalizing number with
  | nil => rfl
  | cons command commands ih =>
    simp only [List.cons_append, numbered, ih, List.length_cons, List.append_assoc]
    rw [Nat.add_assoc, Nat.add_comm 1]

theorem numbered_getElem {n : Nat} {command : Text} (hn : 1 ≤ n)
    (h : commands[n - 1]? = some command) :
    numbered 1 commands =
      numbered 1 (commands.take (n - 1)) ++
        ("  ".toList ++ Text.ofNat n ++ " ) ".toList ++ command ++ ['\n']) ++
        numbered (n + 1) (commands.drop n) := by
  obtain ⟨hlt, hget⟩ := List.getElem?_eq_some_iff.mp h
  have hdrop : commands.drop (n - 1) = command :: commands.drop n := by
    rw [List.drop_eq_getElem_cons hlt, hget, Nat.sub_add_cancel hn]
  have hcut := numbered_append 1 (commands.take (n - 1)) (commands.drop (n - 1))
  rw [List.take_append_drop, hdrop, List.length_take_of_le (by omega), Nat.add_sub_cancel' hn,
    numbered] at hcut
  rw [hcut]
  simp only [List.append_assoc, List.singleton_append]

def asked (question : Text) (s : Session) : Session :=
  ⟨(Session.takeLine s.input).2, s.output ++ question, s.invocations⟩

theorem confirm_apply (command : Text) (s : Session) :
    confirm command s =
      (s.answer?.elim (.error .undecodable) fun line =>
        .ok (decide (Request.Agrees line)),
      asked ("run command '".toList ++ command ++ "'? [Y/n] ".toList) s) := by
  have hread := Session.readLine_apply
    { s with output := s.output ++ ("run command '".toList ++ command ++ "'? [Y/n] ".toList) }
  refine (Session.bind_of_ok (Session.write_apply _ s) _).trans ?_
  change _ = (s.answer?.elim _ _, _)
  change _ = (s.answer?.elim _ _, _) at hread
  cases ha : s.answer? with
  | none =>
    rw [ha] at hread
    exact Session.bind_of_error hread _
  | some line =>
    rw [ha] at hread
    refine (Session.bind_of_ok hread _).trans ?_
    dsimp only [Option.elim_some]
    rw [decide_eq_decide.mpr Request.agrees_iff, Bool.decide_or, Bool.decide_or, ← Bool.or_assoc]
    rfl

theorem select_apply (commands : List Text) (s : Session) :
    select commands s =
      match s.answer? with
      | none => (.error .undecodable, asked (menu commands) s)
      | some line =>
        match selection commands.length line with
        | .ok position => (.ok (some position), asked (menu commands) s)
        | .error complaint =>
          (.ok none, { asked (menu commands) s with
            output := (asked (menu commands) s).output ++ (complaint ++ ['\n']) }) := by
  have hread := Session.readLine_apply { s with output := s.output ++ menu commands }
  change _ = (s.answer?.elim _ _, _) at hread
  refine (Session.bind_of_ok (Session.write_apply _ s) _).trans ?_
  refine (Session.bind_of_ok (Session.write_apply (numbered 1 commands) _) _).trans ?_
  refine (Session.bind_of_ok (Session.write_apply "selection: ".toList _) _).trans ?_
  simp only [List.append_assoc] at hread ⊢
  cases ha : s.answer? with
  | none =>
    rw [ha] at hread
    exact Session.bind_of_error hread _
  | some line =>
    rw [ha] at hread
    refine (Session.bind_of_ok hread _).trans ?_
    dsimp only
    cases selection commands.length line <;> rfl

theorem selection_of_names {count n : Nat} (h : Request.Names count line n) :
    selection count line = .ok (n - 1) := by
  rw [selection, h.1]
  exact if_pos h.2

theorem selection_of_unnamed {count : Nat} (h : ∀ n, ¬ Request.Names count line n) :
    ∃ complaint, selection count line = .error complaint := by
  rw [selection]
  cases hread : Text.readCount? (Text.trim line) with
  | none => exact ⟨_, rfl⟩
  | some n => exact ⟨_, if_neg fun hrange => h n ⟨hread, hrange⟩⟩

end Dialogue

namespace Request
variable {request : Request} {s : Session} {candidates : List Candidate} {candidate : Candidate}
  {line : Text}

theorem pick_of_several (h : 2 ≤ candidates.length) (s : Session) :
    pick candidates s = (Dialogue.select (candidates.map Candidate.display) >>= fun
      | some position => pure candidates[position]?
      | none => pure none) s := by
  match candidates, h with
  | _ :: _ :: _, _ => rfl

theorem pick_of_noAnswer (hne : candidates ≠ []) (h : s.answer? = none) :
    ∃ question, pick candidates s = (.error .undecodable, Dialogue.asked question s) := by
  match candidates, hne with
  | [candidate], _ =>
    have hconfirm := Dialogue.confirm_apply candidate.display s
    rw [h] at hconfirm
    exact ⟨_, Session.bind_of_error hconfirm _⟩
  | first :: second :: rest, _ =>
    have hselect := Dialogue.select_apply ((first :: second :: rest).map Candidate.display) s
    rw [h] at hselect
    exact ⟨_, (pick_of_several (by simp) s).trans (Session.bind_of_error hselect _)⟩

theorem pick_of_names {n : Nat} (hlength : 2 ≤ candidates.length) (ha : s.answer? = some line)
    (hn : Names candidates.length line n) (hget : candidates[n - 1]? = some candidate) :
    pick candidates s = (.ok (some candidate),
      Dialogue.asked (Dialogue.menu (candidates.map Candidate.display)) s) := by
  have hselect := Dialogue.select_apply (candidates.map Candidate.display) s
  have hselection := Dialogue.selection_of_names hn
  rw [ha] at hselect
  rw [← List.length_map (f := Candidate.display)] at hselection
  dsimp only at hselect
  rw [hselection] at hselect
  refine (pick_of_several hlength s).trans ?_
  refine (Session.bind_of_ok hselect _).trans ?_
  dsimp only
  rw [hget]
  rfl

theorem pick_of_picks (ha : s.answer? = some line) (h : Picks line candidates candidate) :
    ∃ question, pick candidates s = (.ok (some candidate), Dialogue.asked question s) := by
  cases h with
  | agreed hagrees =>
    have hconfirm := Dialogue.confirm_apply candidate.display s
    rw [ha, Option.elim_some, decide_eq_true hagrees] at hconfirm
    exact ⟨_, Session.bind_of_ok hconfirm _⟩
  | numbered hlength hn hget => exact ⟨_, pick_of_names hlength ha hn hget⟩

theorem pick_of_refuses (hne : candidates ≠ []) (ha : s.answer? = some line)
    (h : Refuses line candidates) :
    ∃ t, pick candidates s = (.ok none, t) ∧ t.invocations = s.invocations := by
  match candidates, hne with
  | [candidate], _ =>
    have hconfirm := Dialogue.confirm_apply candidate.display s
    rw [ha, Option.elim_some, decide_eq_false (h.1 rfl)] at hconfirm
    exact ⟨_, Session.bind_of_ok hconfirm _, rfl⟩
  | first :: second :: rest, _ =>
    have hselect := Dialogue.select_apply ((first :: second :: rest).map Candidate.display) s
    rw [ha] at hselect
    obtain ⟨complaint, hcomplaint⟩ := Dialogue.selection_of_unnamed (h.2 (by simp))
    rw [← List.length_map (f := Candidate.display)] at hcomplaint
    dsimp only at hselect
    rw [hcomplaint] at hselect
    exact ⟨_, (pick_of_several (by simp) s).trans (Session.bind_of_ok hselect _), rfl⟩

theorem choose_of_interactive (command : Text) (hne : candidates ≠ []) (hdry : request.dry = false)
    (hi : request.interactive = true) (s : Session) :
    request.choose command candidates s = (pick candidates >>= fun
      | some candidate => pure (.taken candidate)
      | none => do
        Dialogue.showNothingSelected
        return .settled .nothingSelected) s := by
  have hask : ¬ request.dry = true := by simp [hdry]
  unfold choose
  exact congrArg (fun act : Act Choice => act s)
    ((if_neg hne).trans ((if_neg hask).trans (if_pos hi)))

theorem choose_of_declines (command : Text) (h : request.Declines s candidates) :
    ∃ t, request.choose command candidates s =
      ((request.settled s candidates).map .settled, t) ∧ t.invocations = s.invocations := by
  by_cases hne : candidates = []
  · rw [settled, if_pos hne]
    unfold choose
    rw [if_pos hne]
    exact ⟨_, rfl, rfl⟩
  by_cases hdry : request.dry = true
  · rw [settled, if_neg hne, if_pos (.inl hdry)]
    unfold choose
    rw [if_neg hne, if_pos hdry]
    exact ⟨_, rfl, rfl⟩
  cases hi : request.interactive with
  | false =>
    have hlength : 2 ≤ candidates.length := by
      rcases h with h | h | h | h
      · exact absurd h hdry
      · exact absurd h hne
      · exact h.1
      · simp [hi] at h
    rw [settled, if_neg hne, if_pos (.inr hi)]
    unfold choose
    rw [if_neg hne, if_neg hdry, if_neg (by simp [hi])]
    match candidates, hlength with
    | _ :: _ :: _, _ => exact ⟨_, rfl, rfl⟩
  | true =>
    have hrefuses : ∀ line, s.answer? = some line → Refuses line candidates := by
      rcases h with h | h | h | h
      · exact absurd h hdry
      · exact absurd h hne
      · simp [hi] at h
      · exact h.2
    have hchoose := choose_of_interactive command hne (by simpa using hdry) hi s
    rw [settled, if_neg hne, if_neg (by simp [hdry, hi])]
    cases ha : s.answer? with
    | none =>
      obtain ⟨question, hpick⟩ := pick_of_noAnswer hne ha
      exact ⟨_, hchoose.trans (Session.bind_of_error hpick _), rfl⟩
    | some line =>
      obtain ⟨t, hpick, ht⟩ := pick_of_refuses hne ha (hrefuses line ha)
      exact ⟨_, hchoose.trans (Session.bind_of_ok hpick _), ht⟩

theorem choose_of_chooses (h : request.Chooses s candidates candidate) :
    ∃ t, t.invocations = s.invocations ∧
      ∀ command, request.choose command candidates s = (.ok (.taken candidate), t) := by
  have hne : candidates ≠ [] := List.ne_nil_of_mem h.mem
  obtain ⟨hdry, ⟨hi, rfl⟩ | ⟨hi, line, ha, hpicks⟩⟩ := h
  · refine ⟨s, rfl, fun command => ?_⟩
    unfold choose
    rw [if_neg hne, if_neg (by simp [hdry]), if_neg (by simp [hi])]
    rfl
  · obtain ⟨question, hpick⟩ := pick_of_picks ha hpicks
    exact ⟨Dialogue.asked question s, rfl, fun command =>
      (choose_of_interactive command hne hdry hi s).trans (Session.bind_of_ok hpick _)⟩

theorem choose_of_names (command : Text) {n : Nat} (hdry : request.dry = false)
    (hi : request.interactive = true) (hlength : 2 ≤ candidates.length)
    (ha : s.answer? = some line) (hn : Names candidates.length line n)
    (hget : candidates[n - 1]? = some candidate) :
    request.choose command candidates s = (.ok (.taken candidate),
      Dialogue.asked (Dialogue.menu (candidates.map Candidate.display)) s) := by
  have hne : candidates ≠ [] := List.ne_nil_of_mem (List.mem_of_getElem? hget)
  have hpick := pick_of_names hlength ha hn hget
  exact (choose_of_interactive command hne hdry hi s).trans (Session.bind_of_ok hpick _)

end Request

namespace Undoer
variable {u : Undoer} {request : Request} {s : Session}

def asked (u : Undoer) (request : Request) : List Invocation :=
  match request.command, u.shell? with
  | none, some shell =>
    (HistoryFormat.ofShell? shell).toList.map (HistoryFormat.question · shell 2)
  | _, _ => []

/-- A request gets as far as letting choose among the candidates for a command. -/
def Finds (u : Undoer) (request : Request) (s : Session) (candidates : List Candidate) : Prop :=
  ∃ shell command, u.shell? = some shell ∧ (u.command shell request s).1 = .ok command ∧
    u.candidates command shell = .ok candidates

theorem capture_apply (programs : Programs) (i : Invocation) (s : Session) :
    Session.capture programs i s =
      ((programs.capture s.invocations i).mapError .refused, s.recorded i) := by
  change Session.ofExcept ((programs.capture s.invocations i).mapError .refused) (s.recorded i) = _
  rw [Session.ofExcept_apply]

theorem history_apply (programs : Programs) (shell : Text) (limit : Nat) (s : Session) :
    ∃ result, Shell.history programs shell limit s = (result,
      s.extended ((HistoryFormat.ofShell? shell).toList.map
        (HistoryFormat.question · shell (limit + 1)))) := by
  rw [Shell.history]
  cases HistoryFormat.ofShell? shell with
  | none => exact ⟨_, by rw [Option.toList_none, List.map_nil, Session.extended_nil]; rfl⟩
  | some format =>
    have hcapture := capture_apply programs (format.question shell (limit + 1)) s
    dsimp only
    cases hc : programs.capture s.invocations (format.question shell (limit + 1)) with
    | error reason =>
      rw [hc] at hcapture
      exact ⟨_, Session.bind_of_error hcapture _⟩
    | ok answer =>
      obtain ⟨status, printed⟩ := answer
      rw [hc] at hcapture
      by_cases h0 : status = 0
      · refine ⟨format.commands limit (Text.Utf8.decodeLossy printed),
          (Session.bind_of_ok hcapture _).trans ?_⟩
        dsimp only
        rw [if_neg (by simp [h0])]
        exact Session.ofExcept_apply _ _
      · refine ⟨.error (.historyExited status), (Session.bind_of_ok hcapture _).trans ?_⟩
        dsimp only
        rw [if_pos h0]
        rfl

theorem command_apply {shell : Text} (hs : u.shell? = some shell) (request : Request)
    (s : Session) :
    ∃ result, u.command shell request s = (result, s.extended (u.asked request)) := by
  rw [command, asked, hs]
  cases request.command with
  | some command => exact ⟨.ok command, by rw [Session.extended_nil]; rfl⟩
  | none =>
    obtain ⟨result, hhistory⟩ := history_apply u.programs shell 1 s
    cases result with
    | error e => exact ⟨_, Session.bind_of_error hhistory _⟩
    | ok commands =>
      cases hlast : commands.getLast? with
      | none =>
        refine ⟨.error (.emptyHistory shell), (Session.bind_of_ok hhistory _).trans ?_⟩
        dsimp only
        rw [hlast]
        rfl
      | some command =>
        refine ⟨.ok command, (Session.bind_of_ok hhistory _).trans ?_⟩
        dsimp only
        rw [hlast]
        rfl

theorem run_of_not_finds (h : ∀ candidates, ¬ u.Finds request s candidates) :
    ∃ e, u.run request s = (.error e, s.extended (u.asked request)) := by
  rw [run]
  cases hs : u.shell? with
  | none =>
    have hasked : u.asked request = [] := by
      rw [asked, hs]
      cases request.command <;> rfl
    exact ⟨.unknownShell, by rw [hasked, Session.extended_nil]; rfl⟩
  | some shell =>
    obtain ⟨result, hcommand⟩ := command_apply hs request s
    cases result with
    | error e => exact ⟨e, Session.bind_of_error hcommand _⟩
    | ok command =>
      have hofExcept := Session.ofExcept_apply (u.candidates command shell)
        (s.extended (u.asked request))
      cases hc : u.candidates command shell with
      | error e =>
        rw [hc] at hofExcept
        refine ⟨e, (Session.bind_of_ok hcommand _).trans ?_⟩
        rw [hc]
        exact Session.bind_of_error hofExcept _
      | ok candidates =>
        exact absurd ⟨shell, command, hs, by rw [hcommand], hc⟩ (h candidates)

theorem run_of_finds {candidates : List Candidate} (h : u.Finds request s candidates) :
    ∃ command, u.run request s = (request.choose command candidates >>= fun
      | .settled outcome => pure outcome
      | .taken candidate => do
        Session.runAll u.programs candidate.commands
        return .ran candidate) (s.extended (u.asked request)) := by
  obtain ⟨shell, command, hs, hcommand, hc⟩ := h
  obtain ⟨result, hresult⟩ := command_apply hs request s
  obtain rfl : result = .ok command := by rw [hresult] at hcommand; exact hcommand
  have hofExcept := Session.ofExcept_apply (u.candidates command shell)
    (s.extended (u.asked request))
  rw [hc] at hofExcept
  refine ⟨command, ?_⟩
  rw [run, hs]
  refine (Session.bind_of_ok hresult _).trans ?_
  rw [hc]
  exact Session.bind_of_ok hofExcept _

theorem runAll_then (candidate : Candidate) (t : Session) :
    ∃ started result,
      Session.Execution u.programs t.invocations candidate.commands started result ∧
      (do
        Session.runAll u.programs candidate.commands
        return .ran candidate : Act Outcome) t =
        (result.map fun _ => .ran candidate, t.extended started) := by
  obtain ⟨started, result, hexecution, hrun⟩ :=
    Session.exists_execution u.programs candidate.commands t
  refine ⟨started, result, hexecution, ?_⟩
  cases result with
  | error e => exact Session.bind_of_error hrun _
  | ok _ => exact Session.bind_of_ok hrun _

theorem Finds.unique {candidates others : List Candidate} (h : u.Finds request s candidates)
    (ho : u.Finds request s others) : candidates = others := by
  obtain ⟨shell, command, hs, hcommand, hc⟩ := h
  obtain ⟨shell', command', hs', hcommand', hc'⟩ := ho
  obtain rfl := Option.some.inj (hs.symm.trans hs')
  obtain rfl := Except.ok.inj (hcommand.symm.trans hcommand')
  exact Except.ok.inj (hc.symm.trans hc')

theorem run_of_declines {candidates : List Candidate} (hf : u.Finds request s candidates)
    (h : request.Declines s candidates) :
    ∃ t, u.run request s = (request.settled s candidates, t) ∧
      t.invocations = s.invocations ++ u.asked request := by
  obtain ⟨command, hrun⟩ := run_of_finds hf
  have hlater : request.Declines (s.extended (u.asked request)) candidates := h
  obtain ⟨t, hchoose, ht⟩ := Request.choose_of_declines command hlater
  refine ⟨t, hrun.trans ?_, ht⟩
  change request.choose command candidates _ = ((request.settled s candidates).map _, t) at hchoose
  cases hsettled : request.settled s candidates with
  | error e =>
    rw [hsettled] at hchoose
    exact Session.bind_of_error hchoose _
  | ok outcome =>
    rw [hsettled] at hchoose
    exact Session.bind_of_ok hchoose _

/-- Once a candidate is taken its commands are executed, and nothing more is said. -/
theorem run_of_taken {candidates : List Candidate} {candidate : Candidate} {t : Session}
    (hf : u.Finds request s candidates)
    (h : ∀ command, request.choose command candidates (s.extended (u.asked request)) =
      (.ok (.taken candidate), t)) :
    ∃ started result,
      Session.Execution u.programs t.invocations candidate.commands started result ∧
      u.run request s = (result.map fun _ => .ran candidate, t.extended started) := by
  obtain ⟨command, hrun⟩ := run_of_finds hf
  obtain ⟨started, result, hexecution, hcommands⟩ := runAll_then (u := u) candidate t
  exact ⟨started, result, hexecution,
    (hrun.trans (Session.bind_of_ok (h command) _)).trans hcommands⟩

theorem run_of_chooses {candidates : List Candidate} {candidate : Candidate}
    (hf : u.Finds request s candidates) (h : request.Chooses s candidates candidate) :
    ∃ started result t, u.run request s = (result.map fun _ => .ran candidate, t) ∧
      t.invocations = s.invocations ++ u.asked request ++ started ∧
      Session.Execution u.programs (s.invocations ++ u.asked request) candidate.commands started
        result := by
  have hlater : request.Chooses (s.extended (u.asked request)) candidates candidate := h
  obtain ⟨t, ht, hchoose⟩ := Request.choose_of_chooses hlater
  obtain ⟨started, result, hexecution, hrun⟩ := run_of_taken hf hchoose
  rw [ht] at hexecution
  refine ⟨started, result, _, hrun, ?_, hexecution⟩
  rw [Session.extended, ht]
  rfl

/-- What is seen before a number is typed, up to the end of the run: the menu, where the number
stands in front of the candidate that is run. -/
theorem output_of_names {candidates : List Candidate} {candidate : Candidate} {line : Text}
    {n : Nat} (hf : u.Finds request s candidates) (hdry : request.dry = false)
    (hi : request.interactive = true) (hlength : 2 ≤ candidates.length)
    (ha : s.answer? = some line) (hn : Request.Names candidates.length line n)
    (hget : candidates[n - 1]? = some candidate) :
    (u.run request s).2.output = s.output ++
      ("Please select the command to run (invalid input will run no commands):".toList ++ ['\n'] ++
        (Dialogue.numbered 1 ((candidates.take (n - 1)).map Candidate.display) ++
          ("  ".toList ++ Text.ofNat n ++ " ) ".toList ++ candidate.display ++ ['\n']) ++
          Dialogue.numbered (n + 1) ((candidates.drop n).map Candidate.display)) ++
        "selection: ".toList) := by
  have hlater : (s.extended (u.asked request)).answer? = some line := ha
  obtain ⟨started, result, -, hrun⟩ := run_of_taken hf fun command =>
    Request.choose_of_names command hdry hi hlength hlater hn hget
  have hdisplay : (candidates.map Candidate.display)[n - 1]? = some candidate.display := by
    rw [List.getElem?_map, hget]
    rfl
  have hmenu := Dialogue.numbered_getElem hn.2.1 hdisplay
  rw [← List.map_take, ← List.map_drop] at hmenu
  rw [hrun, ← hmenu]
  rfl

/-- Nothing is run unless it was chosen, and only what was chosen is run. Where nothing is found or
nothing is to be run, nothing is started. Otherwise one candidate is chosen, on a menu the one
shown with the number that was typed; its commands are executed in their order up to the first
failure, and it counts as run exactly if all of them came to a good end. -/
theorem run_only_chosen (u : Undoer) (request : Request) (s : Session) :
    ∃ started, (u.run request s).2.invocations = s.invocations ++ u.asked request ++ started ∧
      ((∀ candidates, ¬ u.Finds request s candidates) →
        started = [] ∧ ∃ e, (u.run request s).1 = .error e) ∧
      ∀ candidates, u.Finds request s candidates →
        (request.Declines s candidates →
          started = [] ∧ (u.run request s).1 = request.settled s candidates) ∧
        (¬ request.Declines s candidates → ∃! candidate, request.Chooses s candidates candidate) ∧
        (∀ candidate, request.Chooses s candidates candidate →
          candidate ∈ candidates ∧
          (candidate.commands.take started.length).map Invocation.ofCommand = started.map .ok ∧
          ∃ result, Session.Execution u.programs (s.invocations ++ u.asked request)
              candidate.commands started result ∧
            (u.run request s).1 = result.map fun _ => .ran candidate) ∧
        (∀ line n candidate, request.dry = false → request.interactive = true →
          2 ≤ candidates.length → s.answer? = some line →
          Request.Names candidates.length line n → candidates[n - 1]? = some candidate →
          request.Chooses s candidates candidate ∧
          (u.run request s).2.output = s.output ++
            ("Please select the command to run (invalid input will run no commands):".toList ++
              ['\n'] ++
              (Dialogue.numbered 1 ((candidates.take (n - 1)).map Candidate.display) ++
                ("  ".toList ++ Text.ofNat n ++ " ) ".toList ++ candidate.display ++ ['\n']) ++
                Dialogue.numbered (n + 1) ((candidates.drop n).map Candidate.display)) ++
              "selection: ".toList)) ∧
        ∀ candidate, (u.run request s).1 = .ok (.ran candidate) ↔
          request.Chooses s candidates candidate ∧
          candidate.commands.map Invocation.ofCommand = started.map .ok ∧
          ∀ before i after, started = before ++ i :: after →
            u.programs.present (s.invocations ++ u.asked request ++ before) i.program = true ∧
            u.programs.start (s.invocations ++ u.asked request ++ before) i = .ok 0 := by
  by_cases hfound : ∃ candidates, u.Finds request s candidates
  · obtain ⟨candidates, hf⟩ := hfound
    by_cases hd : request.Declines s candidates
    · obtain ⟨t, hrun, ht⟩ := run_of_declines hf hd
      have hnone (candidate : Candidate) : ¬ request.Chooses s candidates candidate :=
        fun hc => hc.not_declines hd
      refine ⟨[], by rw [hrun, List.append_nil]; exact ht, fun h => absurd hf (h candidates),
        fun others ho => ?_⟩
      obtain rfl := hf.unique ho
      refine ⟨fun _ => ⟨rfl, by rw [hrun]⟩, fun h => absurd hd h,
        fun candidate hc => absurd hc (hnone candidate), ?_, fun candidate => ?_⟩
      · intro line n candidate hdry hi hlength ha hn hget
        exact absurd ⟨hdry, .inr ⟨hi, line, ha, .numbered hlength hn hget⟩⟩ (hnone candidate)
      · rw [hrun]
        exact ⟨fun h => absurd h (Request.settled_ne_ran candidate),
          fun h => absurd h.1 (hnone candidate)⟩
    · obtain ⟨chosen, hchosen⟩ := Request.exists_chooses hd
      obtain ⟨started, result, t, hrun, ht, hexecution⟩ := run_of_chooses hf hchosen
      have honly (candidate : Candidate) (hc : request.Chooses s candidates candidate) :
          candidate = chosen := hc.unique hchosen
      refine ⟨started, by rw [hrun]; exact ht, fun h => absurd hf (h candidates),
        fun others ho => ?_⟩
      obtain rfl := hf.unique ho
      refine ⟨fun h => absurd h hd, fun _ => ⟨chosen, hchosen, honly⟩, fun candidate hc => ?_,
        ?_, fun candidate => ?_⟩
      · obtain rfl := honly candidate hc
        exact ⟨hc.mem, hexecution.spelled, result, hexecution, by rw [hrun]⟩
      · intro line n candidate hdry hi hlength ha hn hget
        exact ⟨⟨hdry, .inr ⟨hi, line, ha, .numbered hlength hn hget⟩⟩,
          output_of_names hf hdry hi hlength ha hn hget⟩
      · rw [hrun]
        constructor
        · intro hran
          cases result with
          | error e => simp [Except.map] at hran
          | ok _ =>
            obtain rfl : chosen = candidate := by simpa [Except.map] using hran
            exact ⟨hchosen, Session.Execution.ok_iff.mp hexecution⟩
        · rintro ⟨hc, hgood⟩
          obtain rfl := honly candidate hc
          obtain ⟨-, rfl⟩ := hexecution.unique (Session.Execution.ok_iff.mpr hgood)
          rfl
  · obtain ⟨e, hrun⟩ := run_of_not_finds (not_exists.mp hfound)
    refine ⟨[], by rw [hrun, List.append_nil]; rfl, fun _ => ⟨rfl, e, by rw [hrun]⟩,
      fun candidates hf => absurd ⟨candidates, hf⟩ hfound⟩

theorem run_only_chosen_confirmed :
    (shelf.run ⟨some "mkdir build".toList, false, true⟩ ⟨[89, 10], [], []⟩).2.invocations =
        [⟨"rmdir".toList, ["build".toList]⟩] ∧
      (shelf.run ⟨some "mkdir build".toList, false, true⟩ ⟨[89, 10], [], []⟩).1 =
        .ok (.ran (captured shelfRegistry "rmdir".toList "build".toList)) := by
  obtain ⟨started, hinvocations, -, h⟩ :=
    run_only_chosen shelf ⟨some "mkdir build".toList, false, true⟩ ⟨[89, 10], [], []⟩
  have hfinds : shelf.Finds ⟨some "mkdir build".toList, false, true⟩ ⟨[89, 10], [], []⟩
      [captured shelfRegistry "rmdir".toList "build".toList] :=
    ⟨"bash".toList, "mkdir build".toList, rfl, rfl, candidates_shelf (by decide) (by decide)⟩
  have hchooses : Request.Chooses ⟨some "mkdir build".toList, false, true⟩ ⟨[89, 10], [], []⟩
      [captured shelfRegistry "rmdir".toList "build".toList]
      (captured shelfRegistry "rmdir".toList "build".toList) :=
    ⟨rfl, .inr ⟨rfl, ['Y', '\n'], by cbv, .agreed (by decide)⟩⟩
  obtain ⟨-, -, hruns, -, -⟩ := h _ hfinds
  obtain ⟨-, -, result, hexecution, houtcome⟩ := hruns _ hchooses
  obtain ⟨rfl, rfl⟩ := hexecution.unique
    (.next (i := ⟨"rmdir".toList, ["build".toList]⟩) (by decide) rfl rfl .done)
  exact ⟨hinvocations, houtcome⟩

end Undoer
end Countermand

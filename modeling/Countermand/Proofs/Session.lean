import Mathlib
import Countermand.Session

/-! What running command lines does to a session: the invocation that a line spells is recorded if
the program is there, and nothing happens otherwise; the first failure ends a run. -/
namespace Countermand.Session

section
variable {α β : Type} {x : Act α} {s t : Session}

theorem bind_of_ok {a : α} (h : x s = (.ok a, t)) (f : α → Act β) : (x >>= f) s = f a t := by
  change ExceptT.bindCont f (x s).1 (x s).2 = f a t
  rw [h]
  rfl

theorem bind_of_error {e : Failure} (h : x s = (.error e, t)) (f : α → Act β) :
    (x >>= f) s = (.error e, t) := by
  change ExceptT.bindCont f (x s).1 (x s).2 = (.error e, t)
  rw [h]
  rfl

theorem ofExcept_apply (r : Except Failure α) (s : Session) : ofExcept r s = (r, s) := by
  cases r <;> rfl

theorem get_apply (s : Session) : (get : Act Session) s = (.ok s, s) := rfl

theorem write_apply (text : Text) (s : Session) :
    write text s = (.ok (), { s with output := s.output ++ text }) := rfl

end

/-- The next line that was typed, if it is text. -/
def answer? (s : Session) : Option Text := Text.Utf8.decode? (takeLine s.input).1

theorem readLine_apply (s : Session) :
    readLine s =
      (s.answer?.elim (.error .undecodable) .ok, { s with input := (takeLine s.input).2 }) := by
  have hset : (set { s with input := (takeLine s.input).2 } : Act Unit) s =
      (.ok (), { s with input := (takeLine s.input).2 }) := rfl
  rw [readLine, bind_of_ok (get_apply s)]
  dsimp only
  rw [bind_of_ok hset, answer?]
  cases Text.Utf8.decode? (takeLine s.input).1 <;> rfl

def recorded (s : Session) (i : Invocation) : Session :=
  { s with invocations := s.invocations ++ [i] }

/-- How the end of a program that was started is judged. -/
def verdict (command : Text) : Except Text Nat → Except Failure Unit
  | .error reason => .error (.refused reason)
  | .ok status => if status = 0 then .ok () else .error (.exited command status)

theorem start_apply (programs : Programs) (i : Invocation) (s : Session) :
    start programs i s =
      ((programs.start s.invocations i).mapError .refused, s.recorded i) := by
  change ofExcept ((programs.start s.invocations i).mapError .refused) (s.recorded i) = _
  rw [ofExcept_apply]

variable {programs : Programs} {command : Text} {s : Session}

theorem run_of_unspelled {e : Failure} (h : Invocation.ofCommand command = .error e) :
    run programs command s = (.error e, s) := by
  have hsplit : ofExcept (Invocation.ofCommand command) s = (.error e, s) := by
    rw [ofExcept_apply, h]
  exact bind_of_error hsplit _

theorem run_of_spelled {i : Invocation} (h : Invocation.ofCommand command = .ok i) :
    run programs command s =
      if programs.present s.invocations i.program = true then
        (verdict command (programs.start s.invocations i), s.recorded i)
      else (.error (.programMissing i.program), s) := by
  have hsplit : ofExcept (Invocation.ofCommand command) s = (.ok i, s) := by
    rw [ofExcept_apply, h]
  rw [run, bind_of_ok hsplit, bind_of_ok (get_apply s)]
  by_cases hp : programs.present s.invocations i.program = true
  · have hstart := start_apply programs i s
    rw [if_pos hp, if_neg (by simp [hp])]
    cases hs : programs.start s.invocations i with
    | error reason =>
      rw [hs] at hstart
      exact bind_of_error hstart _
    | ok status =>
      rw [hs] at hstart
      refine (bind_of_ok hstart _).trans ?_
      by_cases h0 : status = 0
      · rw [verdict, if_pos h0, if_neg (by simp [h0])]
        rfl
      · rw [verdict, if_neg h0, if_pos h0]
        rfl
  · rw [if_neg hp, if_pos (by simpa using hp)]
    exact bind_of_error rfl _

theorem runAll_cons_of_error {e : Failure} {t : Session}
    (h : run programs command s = (.error e, t)) (commands : List Text) :
    runAll programs (command :: commands) s = (.error e, t) :=
  bind_of_error h _

theorem runAll_cons_of_ok {t : Session} (h : run programs command s = (.ok (), t))
    (commands : List Text) : runAll programs (command :: commands) s = runAll programs commands t :=
  bind_of_ok h _

theorem runAll_singleton (programs : Programs) (command : Text) (s : Session) :
    runAll programs [command] s = run programs command s := by
  cases h : run programs command s with
  | mk result t =>
    cases result with
    | error e => exact runAll_cons_of_error h []
    | ok _ => exact runAll_cons_of_ok h []

/-- The invocations that command lines come to, one after the other, on a machine that has seen
the earlier ones, and the result. The first failure is the last thing that happens. -/
inductive Execution (programs : Programs) :
    List Invocation → List Text → List Invocation → Except Failure Unit → Prop
  | done {earlier : List Invocation} : Execution programs earlier [] [] (.ok ())
  | unspelled {earlier : List Invocation} {command : Text} {commands : List Text} {e : Failure} :
      Invocation.ofCommand command = .error e →
      Execution programs earlier (command :: commands) [] (.error e)
  | missing {earlier : List Invocation} {command : Text} {commands : List Text} {i : Invocation} :
      Invocation.ofCommand command = .ok i → programs.present earlier i.program = false →
      Execution programs earlier (command :: commands) [] (.error (.programMissing i.program))
  | failed {earlier : List Invocation} {command : Text} {commands : List Text} {i : Invocation}
      {e : Failure} :
      Invocation.ofCommand command = .ok i → programs.present earlier i.program = true →
      verdict command (programs.start earlier i) = .error e →
      Execution programs earlier (command :: commands) [i] (.error e)
  | next {earlier : List Invocation} {command : Text} {commands : List Text} {i : Invocation}
      {started : List Invocation} {result : Except Failure Unit} :
      Invocation.ofCommand command = .ok i → programs.present earlier i.program = true →
      programs.start earlier i = .ok 0 →
      Execution programs (earlier ++ [i]) commands started result →
      Execution programs earlier (command :: commands) (i :: started) result

def extended (s : Session) (started : List Invocation) : Session :=
  { s with invocations := s.invocations ++ started }

theorem extended_nil (s : Session) : s.extended [] = s := by
  simp [extended]

theorem extended_recorded (s : Session) (i : Invocation) (started : List Invocation) :
    (s.recorded i).extended started = s.extended (i :: started) := by
  simp [extended, recorded]

theorem verdict_eq_ok {outcome : Except Text Nat} :
    verdict command outcome = .ok () ↔ outcome = .ok 0 := by
  cases outcome with
  | error reason => simp [verdict]
  | ok status => by_cases h : status = 0 <;> simp [verdict, h]

namespace Execution

/-- What was started is what the lines spell, in their order, up to some line. -/
theorem spelled {earlier started : List Invocation} {commands : List Text}
    {result : Except Failure Unit} (h : Execution programs earlier commands started result) :
    (commands.take started.length).map Invocation.ofCommand = started.map .ok := by
  induction h with
  | done => rfl
  | unspelled _ => rfl
  | missing _ _ => rfl
  | failed hspelled _ _ => simp [hspelled]
  | next hspelled _ _ _ ih => simpa [hspelled] using ih

/-- Execution comes to a good end exactly if every line is spelled, its program is there and that
program ends well. -/
theorem ok_iff {earlier started : List Invocation} {commands : List Text} :
    Execution programs earlier commands started (.ok ()) ↔
      commands.map Invocation.ofCommand = started.map .ok ∧
      ∀ before i after, started = before ++ i :: after →
        programs.present (earlier ++ before) i.program = true ∧
          programs.start (earlier ++ before) i = .ok 0 := by
  induction commands generalizing earlier started with
  | nil =>
    constructor
    · intro h
      cases h
      simp
    · rintro ⟨hspelled, -⟩
      obtain rfl : started = [] := by simpa using hspelled
      exact .done
  | cons command commands ih =>
    constructor
    · intro h
      cases h with
      | next hspelled hp hstart hrest =>
        obtain ⟨hall, heach⟩ := ih.mp hrest
        refine ⟨by simp [hspelled, hall], fun before j after heq => ?_⟩
        cases before with
        | nil =>
          obtain ⟨rfl, -⟩ := List.cons.inj heq
          rw [List.append_nil]
          exact ⟨hp, hstart⟩
        | cons first before =>
          obtain ⟨rfl, hmore⟩ := List.cons.inj heq
          simpa using heach before j after hmore
    · rintro ⟨hspelled, heach⟩
      cases started with
      | nil => simp at hspelled
      | cons i started =>
        obtain ⟨hi, hall⟩ := List.cons.inj hspelled
        have hfirst := heach [] i started rfl
        rw [List.append_nil] at hfirst
        refine .next hi hfirst.1 hfirst.2 (ih.mpr ⟨hall, fun before j after heq => ?_⟩)
        have hlater := heach (i :: before) j after (by rw [heq]; rfl)
        simpa using hlater

theorem unique {earlier started others : List Invocation} {commands : List Text}
    {result outcome : Except Failure Unit} (h : Execution programs earlier commands started result)
    (ho : Execution programs earlier commands others outcome) :
    started = others ∧ result = outcome := by
  induction h generalizing others outcome with
  | done =>
    cases ho
    exact ⟨rfl, rfl⟩
  | unspelled hspelled => cases ho <;> simp_all
  | missing hspelled hp => cases ho <;> simp_all
  | failed hspelled hp hv =>
    cases ho with
    | unspelled hspelled' => simp_all
    | missing hspelled' hp' => simp_all
    | failed hspelled' hp' hv' => simp_all
    | next hspelled' hp' hstart' _ =>
      obtain rfl := Except.ok.inj (hspelled.symm.trans hspelled')
      simp [hstart', verdict] at hv
  | next hspelled hp hstart hrest ih =>
    cases ho with
    | unspelled hspelled' => simp_all
    | missing hspelled' hp' => simp_all
    | failed hspelled' hp' hv' =>
      obtain rfl := Except.ok.inj (hspelled.symm.trans hspelled')
      simp [hstart, verdict] at hv'
    | next hspelled' hp' hstart' hrest' =>
      obtain rfl := Except.ok.inj (hspelled.symm.trans hspelled')
      obtain ⟨rfl, rfl⟩ := ih hrest'
      exact ⟨rfl, rfl⟩

end Execution

/-- Running command lines does to a session what executing them comes to, and no more. -/
theorem exists_execution (programs : Programs) (commands : List Text) (s : Session) :
    ∃ started result, Execution programs s.invocations commands started result ∧
      runAll programs commands s = (result, s.extended started) := by
  induction commands generalizing s with
  | nil => exact ⟨[], .ok (), .done, by rw [extended_nil]; rfl⟩
  | cons command commands ih =>
    cases hspelled : Invocation.ofCommand command with
    | error e =>
      refine ⟨[], .error e, .unspelled hspelled, ?_⟩
      rw [extended_nil]
      exact runAll_cons_of_error (run_of_unspelled hspelled) commands
    | ok i =>
      have hrun : run programs command s = _ := run_of_spelled hspelled
      by_cases hp : programs.present s.invocations i.program = true
      · rw [if_pos hp] at hrun
        cases hv : verdict command (programs.start s.invocations i) with
        | error e =>
          rw [hv] at hrun
          exact ⟨[i], .error e, .failed hspelled hp hv, runAll_cons_of_error hrun commands⟩
        | ok _ =>
          rw [hv] at hrun
          obtain ⟨started, result, hexecution, hrest⟩ := ih (s.recorded i)
          refine ⟨i :: started, result, .next hspelled hp (verdict_eq_ok.mp hv) hexecution, ?_⟩
          rw [runAll_cons_of_ok hrun, hrest, extended_recorded]
      · rw [if_neg hp] at hrun
        have hmissing := Bool.eq_false_iff.mpr hp
        refine ⟨[], _, .missing hspelled hmissing, ?_⟩
        rw [extended_nil]
        exact runAll_cons_of_error hrun commands

end Countermand.Session

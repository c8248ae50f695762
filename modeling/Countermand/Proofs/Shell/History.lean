import Countermand.Shell.History
import Countermand.Proofs.Results
import Countermand.Proofs.Text.Splitting

/-! Histories that a shell printed are read back. A numbered line is cut behind its first number and
the blanks around it, so that a command may itself start with a number; only the lines in the window
in front of the last line are looked at. -/
namespace Countermand
open Results

namespace HistoryFormat

def IsNumber (t : Text) : Prop := t ≠ [] ∧ t.head? ≠ some '0' ∧ ∀ c ∈ t, c.isDigit = true

inductive IsFront : HistoryFormat → Text → Prop
  | plain : IsFront .plain []
  | numbered {blanks number gap : Text} : (∀ c ∈ blanks, isGap c = true) → IsNumber number →
      gap ≠ [] → (∀ c ∈ gap, isGap c = true) → IsFront .numbered (blanks ++ (number ++ gap))

theorem isGap_of_isDigit {c : Char} (h : c.isDigit = true) : isGap c = false := by
  have hc : c.val.toNat = c.toNat := rfl
  have digits : '0'.val.toNat = 48 ∧ '9'.val.toNat = 57 := by decide
  simp only [Char.isDigit, Bool.and_eq_true, decide_eq_true_eq, ge_iff_le, UInt32.le_iff_toNat_le,
    hc] at h
  simp only [isGap, Bool.or_eq_false_iff, beq_eq_false_iff_ne, Bool.and_eq_false_iff,
    decide_eq_false_iff_not]
  refine ⟨?_, by omega⟩
  rintro rfl
  exact absurd h (by decide)

section
variable {front line rest : Text}

/-- A number is cut off with all blanks around it. -/
theorem afterNumber?_append (hf : IsFront .numbered front)
    (hr : ∀ c ∈ rest.head?, isGap c = false) : afterNumber? (front ++ rest) = some rest := by
  cases hf with
  | @numbered blanks number gap hblanks hnumber hgap hgaps =>
  obtain ⟨hne, hzero, hdigits⟩ := hnumber
  obtain ⟨c, tail, rfl⟩ := List.exists_cons_of_ne_nil hne
  obtain ⟨d, more, rfl⟩ := List.exists_cons_of_ne_nil hgap
  obtain ⟨hc, htail⟩ := List.forall_mem_cons.mp hdigits
  obtain ⟨hd, hmore⟩ := List.forall_mem_cons.mp hgaps
  have hz : c ≠ '0' := by simpa using hzero
  have hdigit : d.isDigit = false := by
    by_contra hdigit
    exact absurd (isGap_of_isDigit (by simpa using hdigit)) (by simp [hd])
  have hline : (blanks ++ (c :: (tail ++ d :: (more ++ rest)))).dropWhile isGap =
      c :: (tail ++ d :: (more ++ rest)) :=
    Text.dropWhile_exact hblanks (by simpa using isGap_of_isDigit hc)
  have hnumber : (tail ++ d :: (more ++ rest)).dropWhile Char.isDigit = d :: (more ++ rest) :=
    Text.dropWhile_exact htail (by simpa using hdigit)
  have hcommand : (more ++ rest).dropWhile isGap = rest := Text.dropWhile_exact hmore hr
  simp only [List.append_assoc, List.cons_append, afterNumber?, hline, hnumber, hcommand, hc, hd]
  simp [hz]

theorem exists_front_of_afterNumber? (h : afterNumber? line = some rest) :
    ∃ front, IsFront .numbered front ∧ line = front ++ rest := by
  unfold afterNumber? at h
  split at h
  · simp at h
  rename_i c tail hline
  split_ifs at h with hdigit
  split at h
  · simp at h
  rename_i d command htail
  split_ifs at h with hd
  obtain rfl := Option.some.inj h
  obtain ⟨hc, hzero⟩ : c.isDigit = true ∧ c ≠ '0' := by simpa using hdigit
  have hnumber : IsNumber (c :: tail.takeWhile Char.isDigit) :=
    ⟨by simp, by simpa using hzero,
      List.forall_mem_cons.mpr ⟨hc, fun e he => List.mem_takeWhile_imp he⟩⟩
  have hgaps : ∀ e ∈ d :: command.takeWhile isGap, isGap e = true :=
    List.forall_mem_cons.mpr ⟨hd, fun e he => List.mem_takeWhile_imp he⟩
  refine ⟨line.takeWhile isGap ++
      ((c :: tail.takeWhile Char.isDigit) ++ (d :: command.takeWhile isGap)),
    .numbered (fun e he => List.mem_takeWhile_imp he) hnumber (by simp) hgaps, ?_⟩
  calc line = line.takeWhile isGap ++ (c :: tail) := by
        rw [← hline, List.takeWhile_append_dropWhile]
    _ = line.takeWhile isGap ++ (c :: (tail.takeWhile Char.isDigit ++ (d :: command))) := by
        rw [← htail, List.takeWhile_append_dropWhile]
    _ = line.takeWhile isGap ++ (c :: (tail.takeWhile Char.isDigit ++
          (d :: (command.takeWhile isGap ++ command.dropWhile isGap)))) := by
        rw [List.takeWhile_append_dropWhile]
    _ = _ := by simp only [List.append_assoc, List.cons_append]

/-- A line with a number in front, and with blanks before what follows. -/
def IsNumbered (line : Text) : Prop := ∃ front rest, IsFront .numbered front ∧ line = front ++ rest

theorem isNumbered_iff : IsNumbered line ↔ ∃ rest, afterNumber? line = some rest := by
  constructor
  · rintro ⟨front, rest, hf, rfl⟩
    cases hf with
    | @numbered blanks number gap hblanks hnumber hgap hgaps =>
    -- the blanks at the beginning of the rest go with those before it
    have hmore : ∀ c ∈ gap ++ rest.takeWhile isGap, isGap c = true := by
      intro c hc
      rcases List.mem_append.mp hc with hc | hc
      · exact hgaps c hc
      · exact List.mem_takeWhile_imp hc
    have hfront := IsFront.numbered hblanks hnumber (by simp [hgap]) hmore
    have hafter := afterNumber?_append hfront (Text.head?_dropWhile isGap rest)
    simp only [List.append_assoc, List.takeWhile_append_dropWhile] at hafter ⊢
    exact ⟨_, hafter⟩
  · rintro ⟨rest, h⟩
    obtain ⟨front, hf, rfl⟩ := exists_front_of_afterNumber? h
    exact ⟨front, rest, hf, rfl⟩

end

/-- The lines that are read: at most `limit` right before the last one. -/
def window (limit : Nat) (t : Text) : List Text := (Text.lines t).dropLast.rtake limit

theorem commands_eq (format : HistoryFormat) (limit : Nat) (t : Text) :
    format.commands limit t = ((window limit t).map Text.trimEnd).mapM format.command := by
  rw [commands, window, List.rtake, ← List.map_drop]
  simp

theorem exists_commands_error_iff (limit : Nat) (t : Text) :
    (∃ e, HistoryFormat.numbered.commands limit t = .error e) ↔
      ∃ line ∈ window limit t, ¬IsNumbered (Text.trimEnd line) := by
  have hcommand (line : Text) :
      (∃ e, HistoryFormat.numbered.command line = .error e) ↔ ¬IsNumbered line := by
    rw [isNumbered_iff, command]
    cases afterNumber? line <;> simp
  rw [commands_eq, exists_mapM_error]
  simp [hcommand]

/-- A command of a history, and what its shell prints in front of it. -/
structure Record where
  front : Text
  command : Text

namespace Record

def line (r : Record) : Text := r.front ++ r.command

/-- A command of a single line, without blanks at its ends that would be lost. -/
structure Writable (format : HistoryFormat) (r : Record) : Prop where
  front : IsFront format r.front
  single : '\n' ∉ r.line
  nonempty : r.command ≠ []
  start : ∀ c ∈ r.command.head?, isGap c = false
  stop : ∀ c ∈ r.command.getLast?, Text.isBlank c = false

variable {format : HistoryFormat} {r : Record}

theorem Writable.getLast?_line (h : r.Writable format) :
    ∃ c ∈ r.line.getLast?, Text.isBlank c = false := by
  have hlast := List.getLast?_eq_some_getLast h.nonempty
  refine ⟨_, ?_, h.stop _ hlast⟩
  rw [line, List.getLast?_append, hlast]
  rfl

theorem Writable.trimEnd_line (h : r.Writable format) : Text.trimEnd r.line = r.line := by
  obtain ⟨c, hc, hblank⟩ := h.getLast?_line
  refine Text.trimEnd_eq_self fun d hd => ?_
  obtain rfl : c = d := Option.some.inj (hc.symm.trans hd)
  exact hblank

theorem Writable.command_line (h : r.Writable format) : format.command r.line = .ok r.command := by
  have hfront := h.front
  cases format with
  | plain =>
    generalize hr : r.front = front at hfront
    cases hfront
    rw [HistoryFormat.command, line, hr, List.nil_append]
  | numbered =>
    have hafter : afterNumber? r.line = some r.command := afterNumber?_append hfront h.start
    rw [HistoryFormat.command, hafter]

end Record

theorem commands_written (format : HistoryFormat) (limit : Nat) {records : List Record}
    {ending : Text} (hne : records ≠ []) (hw : ∀ r ∈ records, r.Writable format)
    (hending : ending = [] ∨ ending = ['\n']) :
    format.commands limit (['\n'].intercalate (records.map Record.line) ++ ending) =
      .ok ((records.dropLast.rtake (min limit (records.length - 1))).map Record.command) := by
  have hlines : Text.lines (['\n'].intercalate (records.map Record.line) ++ ending) =
      records.map Record.line := by
    refine Text.lines_written (by simpa using hne) hending ?_ ?_
    · simpa using fun r hr => (hw r hr).single
    · simpa using fun r hr => (hw r hr).getLast?_line
  have hcount : records.dropLast.rtake (min limit (records.length - 1)) =
      records.dropLast.rtake limit := by
    rw [List.rtake, List.rtake, List.length_dropLast]
    congr 1
    omega
  have hwindow : window limit (['\n'].intercalate (records.map Record.line) ++ ending) =
      (records.dropLast.rtake limit).map Record.line := by
    simp only [window, hlines, List.rtake, List.length_dropLast, List.length_map, List.map_drop,
      List.map_dropLast]
  have hread : ∀ r ∈ records.dropLast.rtake limit, r.Writable format := by
    intro r hr
    exact hw r (List.mem_of_mem_dropLast (List.mem_of_mem_drop hr))
  rw [commands_eq, hwindow, hcount, List.map_map, List.mapM_map]
  refine mapM_eq_ok fun r hr => ?_
  rw [Function.comp_apply, Function.comp_apply, (hread r hr).trimEnd_line]
  exact (hread r hr).command_line

/-- What was written is recovered; whether lines can be read is decided in the window alone. -/
theorem commands_recovered (format : HistoryFormat) (limit : Nat) :
    (∀ records ending, records ≠ [] → (∀ r ∈ records, Record.Writable format r) →
      (ending = [] ∨ ending = ['\n']) →
      format.commands limit (['\n'].intercalate (records.map Record.line) ++ ending) =
        .ok ((records.dropLast.rtake (min limit (records.length - 1))).map Record.command)) ∧
      (∀ t, (∃ e, HistoryFormat.numbered.commands limit t = .error e) ↔
        ∃ line ∈ window limit t, ¬IsNumbered (Text.trimEnd line)) ∧
      ∀ t u, window limit t = window limit u →
        format.commands limit t = format.commands limit u := by
  refine ⟨fun _ _ hne hw hending => commands_written format limit hne hw hending,
    exists_commands_error_iff limit, fun t u h => ?_⟩
  rw [commands_eq, commands_eq, h]

def zipping : List Record :=
  [⟨"  9  ".toList, "mv  'a b'  c".toList⟩, ⟨"10\t".toList, "7 zip".toList⟩,
    ⟨" 11 ".toList, "undo".toList⟩]

theorem commands_recovered_zipping :
    (∀ r ∈ zipping, r.Writable .numbered) ∧
      HistoryFormat.numbered.commands 1 "  9  mv  'a b'  c\n10\t7 zip\n 11 undo\n".toList =
        .ok ["7 zip".toList] ∧
      window 1 "10 7 zip\n11 undo".toList = window 1 "nothing\n10 7 zip\nhere".toList ∧
      HistoryFormat.numbered.commands 1 "10 7 zip\n11 undo".toList =
        HistoryFormat.numbered.commands 1 "nothing\n10 7 zip\nhere".toList := by
  have nine : IsFront .numbered "  9  ".toList :=
    @IsFront.numbered "  ".toList "9".toList "  ".toList (by simp [isGap])
      ⟨by simp, by simp, by simp⟩ (by simp) (by simp [isGap])
  have ten : IsFront .numbered "10\t".toList :=
    @IsFront.numbered [] "10".toList "\t".toList (by simp)
      ⟨by simp, by simp, by simp⟩ (by simp) (by simp [isGap])
  have eleven : IsFront .numbered " 11 ".toList :=
    @IsFront.numbered " ".toList "11".toList " ".toList (by simp [isGap])
      ⟨by simp, by simp, by simp⟩ (by simp) (by simp [isGap])
  have hw : ∀ r ∈ zipping, r.Writable .numbered := by
    simp only [zipping, List.forall_mem_cons]
    exact ⟨⟨nine, by decide, by decide, by simp [isGap], by simp [Text.isBlank]⟩,
      ⟨ten, by decide, by decide, by simp [isGap], by simp [Text.isBlank]⟩,
      ⟨eleven, by decide, by decide, by simp [isGap], by simp [Text.isBlank]⟩, by simp⟩
  obtain ⟨hwritten, -, hwindow⟩ := commands_recovered .numbered 1
  have htext : "  9  mv  'a b'  c\n10\t7 zip\n 11 undo\n".toList =
      ['\n'].intercalate (zipping.map Record.line) ++ ['\n'] := by decide
  have hsame : window 1 "10 7 zip\n11 undo".toList = window 1 "nothing\n10 7 zip\nhere".toList := by
    decide
  refine ⟨hw, ?_, hsame, hwindow _ _ hsame⟩
  rw [htext]
  exact hwritten zipping ['\n'] (by simp [zipping]) hw (.inr rfl)

end HistoryFormat
end Countermand

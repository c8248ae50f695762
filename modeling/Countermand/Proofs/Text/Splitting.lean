import Countermand.Proofs.Text.Characters

/-! Texts taken apart: initial and final parts, blanks at the ends, the last separator, and the
fields between separators, each with the text it came from. -/
namespace Countermand.Text

theorem after?_append (initial rest : Text) : after? initial (initial ++ rest) = some rest := by
  rw [after?, if_pos (List.isPrefixOf_iff_prefix.mpr (List.prefix_append initial rest)),
    List.drop_left]

theorem append_of_after? {initial t rest : Text} (h : after? initial t = some rest) :
    t = initial ++ rest := by
  rw [after?] at h
  split_ifs at h with hp
  obtain ⟨more, rfl⟩ := List.isPrefixOf_iff_prefix.mp hp
  rw [List.drop_left, Option.some.injEq] at h
  rw [h]

theorem before?_append (body final : Text) : before? final (body ++ final) = some body := by
  rw [before?, List.reverse_append, after?_append, Option.map_some, List.reverse_reverse]

theorem append_of_before? {final t body : Text} (h : before? final t = some body) :
    t = body ++ final := by
  obtain ⟨rest, hrest, rfl⟩ := Option.map_eq_some_iff.mp h
  have ht := congrArg List.reverse (append_of_after? hrest)
  simpa using ht

theorem exists_blanks_trimStart (t : Text) :
    ∃ blanks, (∀ c ∈ blanks, isBlank c = true) ∧ t = blanks ++ trimStart t :=
  ⟨t.takeWhile isBlank, fun _ hc => List.mem_takeWhile_imp hc,
    (List.takeWhile_append_dropWhile).symm⟩

theorem exists_trimEnd_blanks (t : Text) :
    ∃ blanks, (∀ c ∈ blanks, isBlank c = true) ∧ t = trimEnd t ++ blanks := by
  obtain ⟨blanks, hblanks, ht⟩ := exists_blanks_trimStart t.reverse
  refine ⟨blanks.reverse, fun c hc => hblanks c (List.mem_reverse.mp hc), ?_⟩
  have hr := congrArg List.reverse ht
  rwa [List.reverse_reverse, List.reverse_append] at hr

theorem isBlank_of_trim_eq_nil {t : Text} (h : trim t = []) : ∀ c ∈ t, isBlank c = true := by
  obtain ⟨before, hbefore, ht⟩ := exists_blanks_trimStart t
  obtain ⟨after, hafter, hstart⟩ := exists_trimEnd_blanks (trimStart t)
  rw [← trim, h, List.nil_append] at hstart
  intro c hc
  rw [ht, hstart] at hc
  rcases List.mem_append.mp hc with hc | hc
  · exact hbefore c hc
  · exact hafter c hc

/-- The cut is made at the first mark: none stands before it, and without a cut there is none. -/
theorem not_infix_of_cutAt {mark t : Text} (hm : mark ≠ []) :
    (cutAt mark t = none → ¬mark <:+: t) ∧
      ∀ before after, cutAt mark t = some (before, after) → ¬mark <:+: before := by
  induction t with
  | nil => simp [cutAt, List.infix_nil, hm]
  | cons c t ih =>
    rw [cutAt]
    by_cases hp : mark.isPrefixOf (c :: t)
    · rw [if_pos hp]
      refine ⟨by simp, fun before after h => ?_⟩
      obtain ⟨rfl, -⟩ := Prod.mk.inj (Option.some.inj h)
      simpa [List.infix_nil] using hm
    · rw [if_neg hp]
      have hfront : ¬mark <+: c :: t := fun h => hp (List.isPrefixOf_iff_prefix.mpr h)
      constructor
      · intro h
        rw [List.infix_cons_iff]
        exact not_or.mpr ⟨hfront, ih.1 (Option.map_eq_none_iff.mp h)⟩
      · intro before after h
        obtain ⟨⟨more, rest⟩, hcut, heq⟩ := Option.map_eq_some_iff.mp h
        obtain ⟨rfl, rfl⟩ := Prod.mk.inj heq
        have hmore : c :: more <+: c :: t := by
          rw [append_of_cutAt hcut, List.append_assoc]
          exact List.prefix_append (c :: more) (mark ++ rest)
        rw [List.infix_cons_iff]
        exact not_or.mpr ⟨fun h => hfront (h.trans hmore), ih.2 more rest hcut⟩

theorem not_mem_of_cutAt {c : Char} {t before after : Text}
    (h : cutAt [c] t = some (before, after)) : c ∉ before := by
  have hinfix := (not_infix_of_cutAt (List.cons_ne_nil c [])).2 before after h
  rwa [List.singleton_infix_iff] at hinfix

theorem not_infix_of_mem_splitAtMark {mark t : Text} (hm : mark ≠ []) :
    ∀ piece ∈ splitAtMark mark t, ¬mark <:+: piece := by
  fun_induction splitAtMark mark t with
  | case1 t hcut => simpa using (not_infix_of_cutAt hm).1 hcut
  | case2 => contradiction
  | case3 t before after hcut _ ih =>
    intro piece hpiece
    rcases List.mem_cons.mp hpiece with rfl | hpiece
    · exact (not_infix_of_cutAt hm).2 piece after hcut
    · exact ih piece hpiece

theorem of_mem_items {delimiter t item : Text} (hd : delimiter ≠ [])
    (h : item ∈ items delimiter t) : item ≠ [] ∧ ¬delimiter <:+: item := by
  rw [items, if_neg hd] at h
  obtain ⟨hmem, hne⟩ := List.mem_filter.mp h
  exact ⟨by simpa using hne, not_infix_of_mem_splitAtMark hd item hmem⟩

theorem cutAtLast_append {c : Char} {after : Text} (h : c ∉ after) (before : Text) :
    cutAtLast c (before ++ c :: after) = some (before, after) := by
  have hcut := cutAt_singleton (t := after.reverse) (by simpa using h) before.reverse
  simp [cutAtLast, hcut]

theorem append_of_cutAtLast {c : Char} {t before after : Text}
    (h : cutAtLast c t = some (before, after)) : t = before ++ c :: after ∧ c ∉ after := by
  obtain ⟨⟨a, b⟩, hcut, heq⟩ := Option.map_eq_some_iff.mp h
  obtain ⟨rfl, rfl⟩ := Prod.mk.inj heq
  have ht := congrArg List.reverse (append_of_cutAt hcut)
  exact ⟨by simpa using ht, by simpa using not_mem_of_cutAt hcut⟩

section
variable {separates : Char → Bool} {run : Text}

theorem splitWhere_run (h : ∀ c ∈ run, separates c = false) : splitWhere separates run = [run] := by
  induction run with
  | nil => rfl
  | cons c run ih =>
    rw [splitWhere, h c (by simp), ih fun d hd => h d (List.mem_cons_of_mem c hd)]
    rfl

theorem splitWhere_append {c : Char} (h : ∀ d ∈ run, separates d = false)
    (hc : separates c = true) (rest : Text) :
    splitWhere separates (run ++ c :: rest) = run :: splitWhere separates rest := by
  induction run with
  | nil => rw [List.nil_append, splitWhere, if_pos hc]
  | cons d run ih =>
    rw [List.cons_append, splitWhere, h d (by simp),
      ih fun e he => h e (List.mem_cons_of_mem d he)]
    rfl

theorem splitWhere_append_cons {c : Char} (hc : separates c = true) (t rest : Text) :
    splitWhere separates (t ++ c :: rest) =
      splitWhere separates t ++ splitWhere separates rest := by
  induction t with
  | nil => exact splitWhere_append (by simp) hc rest
  | cons d t ih =>
    rw [List.cons_append, splitWhere, splitWhere, ih]
    split_ifs
    · rfl
    · obtain ⟨piece, pieces, hp⟩ := List.exists_cons_of_ne_nil (splitWhere_ne_nil separates t)
      rw [hp]
      rfl

theorem splitOn_append (c : Char) (t rest : Text) :
    splitOn c (t ++ c :: rest) = splitOn c t ++ splitOn c rest :=
  @splitWhere_append_cons (· == c) c (beq_self_eq_true c) t rest

theorem splitWhere_cases (separates : Char → Bool) (t : Text) :
    splitWhere separates t = [t] ∨ ∃ run c rest, t = run ++ c :: rest ∧ separates c = true ∧
      splitWhere separates t = run :: splitWhere separates rest := by
  induction t with
  | nil => exact .inl rfl
  | cons d t ih =>
    by_cases hd : separates d = true
    · exact .inr ⟨[], d, t, rfl, hd, by rw [splitWhere, if_pos hd]⟩
    · rcases ih with ht | ⟨run, c, rest, rfl, hc, ht⟩
      · exact .inl (by rw [splitWhere, if_neg hd, ht]; rfl)
      · exact .inr ⟨d :: run, c, rest, rfl, hc, by rw [splitWhere, if_neg hd, ht]; rfl⟩

theorem mem_splitWhere (separates : Char → Bool) {t : Text} {c : Char} (h : c ∈ t) :
    separates c = true ∨ ∃ piece ∈ splitWhere separates t, c ∈ piece := by
  induction hp : splitWhere separates t generalizing t with
  | nil => exact absurd hp (splitWhere_ne_nil separates t)
  | cons piece pieces ih =>
    rw [← hp]
    rcases splitWhere_cases separates t with hone | ⟨run, d, rest, rfl, hd, hmore⟩
    · exact .inr ⟨t, by simp [hone], h⟩
    · rw [hmore] at hp ⊢
      obtain ⟨rfl, hrest⟩ := List.cons.inj hp
      rcases List.mem_append.mp h with h | h
      · exact .inr ⟨run, by simp, h⟩
      rcases List.mem_cons.mp h with rfl | h
      · exact .inl hd
      · exact (ih h hrest).imp_right fun ⟨more, hm, hc⟩ =>
          ⟨more, List.mem_cons_of_mem run (hrest ▸ hm), hc⟩

theorem not_separates_of_mem_splitWhere {t piece : Text} (h : piece ∈ splitWhere separates t) :
    ∀ c ∈ piece, separates c = false := by
  induction t generalizing piece with
  | nil =>
    obtain rfl := List.mem_singleton.mp h
    simp
  | cons d t ih =>
    rw [splitWhere] at h
    split_ifs at h with hd
    · rcases List.mem_cons.mp h with rfl | h
      · simp
      · exact ih h
    · obtain ⟨first, pieces, hp⟩ := List.exists_cons_of_ne_nil (splitWhere_ne_nil separates t)
      rw [hp, consFirst] at h
      rw [hp] at ih
      rcases List.mem_cons.mp h with rfl | h
      · exact List.forall_mem_cons.mpr ⟨by simpa using hd, ih (by simp)⟩
      · exact ih (List.mem_cons_of_mem first h)

theorem splitOn_intercalate {c : Char} {pieces : List Text} (hne : pieces ≠ [])
    (h : ∀ piece ∈ pieces, c ∉ piece) : splitOn c ([c].intercalate pieces) = pieces := by
  induction pieces with
  | nil => exact absurd rfl hne
  | cons piece pieces ih =>
    have hrun : ∀ d ∈ piece, (d == c) = false := by
      rintro d hd
      rw [beq_eq_false_iff_ne]
      rintro rfl
      exact h piece (by simp) hd
    cases pieces with
    | nil => rw [List.intercalate_singleton, splitOn, splitWhere_run hrun]
    | cons next pieces =>
      have hmore := ih (by simp) fun t ht => h t (List.mem_cons_of_mem piece ht)
      rw [List.intercalate_cons_cons, List.append_assoc, List.singleton_append, splitOn_append,
        splitOn, splitWhere_run hrun, ← splitOn, hmore]
      rfl

/-- Lines that were written one below the other are told apart again, whether a line feed stands
behind the last one or not. -/
theorem lines_written {written : List Text} {ending : Text} (hne : written ≠ [])
    (hending : ending = [] ∨ ending = ['\n']) (hn : ∀ line ∈ written, '\n' ∉ line)
    (hl : ∀ line ∈ written, ∃ c ∈ line.getLast?, isBlank c = false) :
    lines (['\n'].intercalate written ++ ending) = written := by
  -- a carriage return at the end of a line would be taken for a part of the line end
  have hkept : ∀ line ∈ written, withoutReturn line = line := by
    intro line hline
    obtain ⟨c, hc, hblank⟩ := hl line hline
    rw [withoutReturn, if_neg]
    intro hreturn
    obtain rfl : c = '\r' := Option.some.inj (hc.symm.trans hreturn)
    exact absurd hblank (by decide)
  rcases hending with rfl | rfl
  · obtain ⟨front, last, rfl⟩ := (List.eq_nil_or_concat' written).resolve_left hne
    have hlast : last ≠ [] := by
      rintro rfl
      simpa using hl [] (by simp)
    rw [List.append_nil, lines, splitOn_intercalate hne hn, List.dropLast_concat,
      List.getLast?_concat,
      List.map_congr_left fun line hline => hkept line (List.mem_append_left _ hline)]
    simp [hlast]
  · have hsplit : splitOn '\n' (['\n'].intercalate written ++ ['\n']) = written ++ [[]] := by
      rw [splitOn_append, splitOn_intercalate hne hn]
      rfl
    rw [lines, hsplit, List.dropLast_concat, List.getLast?_concat, List.map_congr_left hkept]
    simp

theorem fields_intercalate {c : Char} (hc : separates c = true) {pieces : List Text}
    (h : ∀ t ∈ pieces, t ≠ [] ∧ ∀ d ∈ t, separates d = false) :
    Text.fields separates ([c].intercalate pieces) = pieces := by
  induction pieces with
  | nil => rfl
  | cons t pieces ih =>
    obtain ⟨hne, ht⟩ := h t (by simp)
    have hfields := ih fun s hs => h s (List.mem_cons_of_mem t hs)
    cases pieces with
    | nil =>
      rw [List.intercalate_singleton, Text.fields, splitWhere_run ht]
      simp [hne]
    | cons s pieces =>
      rw [List.intercalate_cons_cons, List.append_assoc, List.singleton_append, Text.fields,
        splitWhere_append ht hc, List.filter_cons_of_pos (by simpa using hne)]
      exact congrArg (t :: ·) hfields

end

end Countermand.Text

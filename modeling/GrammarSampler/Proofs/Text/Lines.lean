import GrammarSampler.Text
import Mathlib.Data.List.TakeWhile

/-!
# Lines and blank ends

Where a text is split, and when trimming leaves it as it is.
-/

namespace GrammarSampler.Text

variable {separator : Char} {s part : List Char}

/-! ## Parts between separators -/

theorem split_append (h : separator ∉ s) (rest : List Char) :
    split separator (s ++ separator :: rest) = s :: split separator rest := by
  induction s with
  | nil => simp [split]
  | cons c s ih =>
      obtain ⟨hc, hs⟩ := List.ne_and_not_mem_of_not_mem_cons h
      rw [List.cons_append, split, if_neg hc.symm, ih hs]

/-- The parts of two texts with a separator between them are those of the one and of the other. -/
theorem split_append_cons (s rest : List Char) :
    split separator (s ++ separator :: rest) = split separator s ++ split separator rest := by
  induction s with
  | nil => simp [split]
  | cons c s ih =>
      by_cases hc : c = separator
      · rw [List.cons_append, split, if_pos hc, ih, split, if_pos hc, List.cons_append]
      · obtain ⟨part, more, hs⟩ := List.exists_cons_of_ne_nil (split_ne_nil separator s)
        rw [List.cons_append, split, if_neg hc, ih, split, if_neg hc, hs]
        rfl

theorem length_split (separator : Char) (s : List Char) :
    (split separator s).length = 1 + s.count separator := by
  induction s with
  | nil => rfl
  | cons c s ih =>
      by_cases hc : c = separator
      · rw [split, if_pos hc, List.length_cons, ih, hc, List.count_cons_self, Nat.add_assoc]
      · obtain ⟨part, more, hs⟩ := List.exists_cons_of_ne_nil (split_ne_nil separator s)
        rw [hs, List.length_cons] at ih
        rw [split, if_neg hc, hs, List.count_cons_of_ne hc, ← ih]
        rfl

theorem not_mem_of_mem_split (h : part ∈ split separator s) : separator ∉ part := by
  induction s generalizing part with
  | nil =>
      obtain rfl := List.mem_singleton.1 h
      exact List.not_mem_nil
  | cons c s ih =>
      by_cases hc : c = separator
      · rw [split, if_pos hc] at h
        rcases List.mem_cons.1 h with rfl | h
        · exact List.not_mem_nil
        · exact ih h
      · rw [split, if_neg hc] at h
        cases hs : split separator s with
        | nil => exact absurd hs (split_ne_nil separator s)
        | cons first more =>
            simp only [hs, List.mem_cons] at h ih
            rcases h with rfl | h
            · exact List.not_mem_cons_of_ne_of_not_mem (Ne.symm hc) (ih (.inl rfl))
            · exact ih (.inr h)

theorem split_of_not_mem (h : separator ∉ s) : split separator s = [s] := by
  induction s with
  | nil => rfl
  | cons c s ih =>
      obtain ⟨hc, hs⟩ := List.ne_and_not_mem_of_not_mem_cons h
      rw [split, if_neg hc.symm, ih hs]

/-- Lines with line breaks between them are read back. -/
theorem lines_intercalate {l : List (List Char)} (hl : l ≠ []) (h : ∀ line ∈ l, '\n' ∉ line) :
    lines (['\n'].intercalate l) = l := by
  induction l with
  | nil => exact absurd rfl hl
  | cons line more ih =>
      obtain ⟨hline, hmore⟩ := List.forall_mem_cons.1 h
      cases more with
      | nil =>
          rw [List.intercalate_singleton]
          exact split_of_not_mem hline
      | cons next more =>
          rw [List.intercalate_cons_cons, List.append_assoc, List.singleton_append, lines,
            split_append hline]
          exact congrArg (line :: ·) (ih (List.cons_ne_nil _ _) hmore)

/-- Lines that are each ended are read back, and an empty line after them. -/
theorem lines_flatMap {α : Type} (write : α → List Char) {l : List α}
    (h : ∀ a ∈ l, '\n' ∉ write a) :
    lines (l.flatMap fun a => write a ++ ['\n']) = l.map write ++ [[]] := by
  induction l with
  | nil => rfl
  | cons a l ih =>
      obtain ⟨ha, hl⟩ := List.forall_mem_cons.1 h
      have hline := split_append ha (l.flatMap fun a => write a ++ ['\n'])
      simp only [List.flatMap_cons, List.append_assoc, List.map_cons, List.cons_append]
      rw [← ih hl]
      exact hline

/-! ## Ends -/

theorem forall_bne_of_not_mem {c : Char} (h : c ∉ s) : ∀ d ∈ s, (d != c) = true := by
  intro d hd
  rw [bne_iff_ne]
  exact ne_of_mem_of_not_mem hd h

theorem not_mem_takeWhile_bne (c : Char) (s : List Char) : c ∉ s.takeWhile (· != c) := by
  intro h
  have hne := List.mem_takeWhile_imp h
  simp at hne

section

variable {p : Char → Bool} {c : Char}

theorem takeWhile_append_cons (hs : ∀ d ∈ s, p d = true) (hc : p c = false) (rest : List Char) :
    (s ++ c :: rest).takeWhile p = s := by
  rw [List.takeWhile_append_of_pos hs, List.takeWhile_cons_of_neg (by simp [hc]), List.append_nil]

theorem dropWhile_append_cons (hs : ∀ d ∈ s, p d = true) (hc : p c = false) (rest : List Char) :
    (s ++ c :: rest).dropWhile p = c :: rest := by
  rw [List.dropWhile_append_of_pos hs, List.dropWhile_cons_of_neg (by simp [hc])]

theorem eq_append_of_dropWhile_eq_cons {rest : List Char} (h : s.dropWhile p = c :: rest) :
    s = s.takeWhile p ++ c :: rest := by
  rw [← h, List.takeWhile_append_dropWhile]

end

theorem trimEnd_sublist (s : List Char) : (trimEnd s).Sublist s := by
  have h := (List.dropWhile_sublist isBlank (l := s.reverse)).reverse
  rwa [List.reverse_reverse] at h

theorem trim_sublist (s : List Char) : (trim s).Sublist s :=
  (trimEnd_sublist _).trans (List.dropWhile_sublist isBlank)

/-- Nothing is trimmed before the last character that is not blank. -/
theorem trimEnd_append_cons {c : Char} (hc : isBlank c = false) (s rest : List Char) :
    trimEnd (s ++ c :: rest) = s ++ c :: trimEnd rest := by
  have hdrop : (c :: s.reverse).dropWhile isBlank = c :: s.reverse :=
    List.dropWhile_cons_of_neg (by simp [hc])
  have hreverse : (s ++ c :: rest).reverse = rest.reverse ++ c :: s.reverse := by simp
  rw [trimEnd, trimEnd, hreverse, List.dropWhile_append, hdrop]
  split
  · next hempty => simp [List.isEmpty_iff.1 hempty]
  · simp

/-- Blanks around a text whose ends are not blank are all that is trimmed. -/
theorem trim_padded {before after : List Char} (hbefore : ∀ c ∈ before, isBlank c = true)
    (hafter : ∀ c ∈ after, isBlank c = true) (hs : s ≠ [])
    (hfirst : ∀ c ∈ s.head?, isBlank c = false) (hlast : ∀ c ∈ s.getLast?, isBlank c = false) :
    trim (before ++ s ++ after) = s := by
  have hdrop : (before ++ s ++ after).dropWhile isBlank = s ++ after := by
    obtain ⟨c, more, rfl⟩ := List.exists_cons_of_ne_nil hs
    rw [List.append_assoc]
    exact dropWhile_append_cons hbefore (hfirst c rfl) (more ++ after)
  obtain ⟨start, d, rfl⟩ : ∃ start d, s = start ++ [d] :=
    ⟨_, _, (List.dropLast_concat_getLast hs).symm⟩
  have hreverse : ∀ c ∈ after.reverse, isBlank c = true := fun c hc =>
    hafter c (List.mem_reverse.1 hc)
  rw [trim, hdrop, trimEnd, List.reverse_append, List.reverse_append,
    List.reverse_singleton, List.singleton_append,
    dropWhile_append_cons hreverse (hlast d List.getLast?_concat), List.reverse_cons,
    List.reverse_reverse]

/-- A text between characters that are not blank has nothing to trim. -/
theorem trim_eq_self {c d : Char} (hc : isBlank c = false) (hd : isBlank d = false)
    (s : List Char) : trim (c :: s ++ [d]) = c :: s ++ [d] := by
  have hpadded := @trim_padded (c :: s ++ [d]) [] [] (List.forall_mem_nil _) (List.forall_mem_nil _)
  rw [List.nil_append, List.append_nil, List.getLast?_concat] at hpadded
  refine hpadded (by simp) ?_ ?_
  · rintro _ ⟨⟩
    exact hc
  · rintro _ ⟨⟩
    exact hd

end GrammarSampler.Text

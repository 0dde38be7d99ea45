import GrammarSampler.Proofs.Random.Accept

/-!
# Fair sources

A source is fair if no draw from it goes on for ever. A list of words given beforehand is fair,
since the zeros after it stand for a number whatever the bound is.
-/

namespace GrammarSampler

theorem accept?_zero (bits n : Nat) : accept? bits n 0 = some 0 := by
  rw [accept?_eq_some_iff]
  simp

namespace Source

/-- Whether a source is what words drawn from another one leave. -/
inductive Later : Source → Source → Prop
  | refl (s : Source) : Later s s
  | next {s t : Source} (w : Width) (h : Later (s.next w).2 t) : Later s t

theorem Later.trans {s t u : Source} (hst : Later s t) (htu : Later t u) : Later s u := by
  induction hst with
  | refl => exact htu
  | next w _ ih => exact .next w (ih htu)

theorem Draws.later {w : Width} {n i : Nat} {s after : Source} (h : Draws w n s i after) :
    Later s after := by
  induction h with
  | accepted => exact .next w (.refl _)
  | rejected _ _ ih => exact .next w ih

/-- Whether every draw comes to an end, now and later. -/
def Fair (s : Source) : Prop :=
  ∀ later, Later s later → ∀ w n, 0 < n → later.below w n ≠ none

theorem Fair.exists_below {s : Source} (h : Fair s) (w : Width) {n : Nat} (hn : 0 < n) :
    ∃ i after, s.below w n = some (i, after) ∧ Fair after := by
  obtain ⟨⟨i, after⟩, hbelow⟩ := Option.ne_none_iff_exists'.1 (h s (.refl s) w n hn)
  have hlater := (draws_of_below hbelow).later
  exact ⟨i, after, hbelow, fun later hl => h later (hlater.trans hl)⟩

/-! ## Scripts -/

theorem next_script (w : Width) (words : List UInt64) (drawn32 drawn64 : Nat) :
    ∃ word drawn32' drawn64', next w ⟨.script words, drawn32, drawn64⟩ =
      (word, ⟨.script words.tail, drawn32', drawn64'⟩) ∧ (words = [] → word = 0) := by
  cases w with
  | w32 => cases words <;> exact ⟨_, _, _, rfl, by simp⟩
  | w64 => cases words <;> exact ⟨_, _, _, rfl, by simp⟩

theorem Later.script {s later : Source} (h : Later s later) {words : List UInt64}
    (hs : s.supply = .script words) : ∃ more, later.supply = .script more := by
  induction h generalizing words with
  | refl => exact ⟨words, hs⟩
  | @next s t w _ ih =>
      obtain ⟨supply, drawn32, drawn64⟩ := s
      obtain rfl := hs
      obtain ⟨word, drawn32', drawn64', hnext, -⟩ := next_script w words drawn32 drawn64
      exact ih (by rw [hnext])

theorem belowWithin_script_ne_none (w : Width) (n : Nat) (words : List UInt64)
    (drawn32 drawn64 : Nat) :
    belowWithin w n (words.length + 1) ⟨.script words, drawn32, drawn64⟩ ≠ none := by
  induction words generalizing drawn32 drawn64 with
  | nil =>
      obtain ⟨word, drawn32', drawn64', hnext, hzero⟩ := next_script w [] drawn32 drawn64
      obtain rfl := hzero rfl
      simp [belowWithin, hnext, accept?_zero]
  | cons first words ih =>
      obtain ⟨word, drawn32', drawn64', hnext, -⟩ := next_script w (first :: words) drawn32 drawn64
      cases ha : accept? w.bits n word with
      | some i => simp [belowWithin, hnext, ha]
      | none =>
          have hmore := ih drawn32' drawn64'
          simpa [belowWithin, hnext, ha] using hmore

theorem fair_of_script {s : Source} {words : List UInt64} (h : s.supply = .script words) :
    Fair s := by
  intro later hlater w n _
  obtain ⟨supply, drawn32, drawn64⟩ := later
  obtain ⟨more, rfl⟩ := hlater.script h
  exact belowWithin_script_ne_none w n more drawn32 drawn64

end Source

end GrammarSampler

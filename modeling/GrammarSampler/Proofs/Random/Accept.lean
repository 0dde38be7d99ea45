import GrammarSampler.Random.Source
import Mathlib

/-!
# Even choices

Every number below the bound is hit by some word, and no other number is. What a source gives is the
number of the first word that counts.
-/

namespace GrammarSampler

/-! ## Words -/

theorem Width.ofLength_of_lt {length : Nat} (h : length < 2 ^ 32) : ofLength length = .w32 :=
  if_pos h

theorem accept?_eq_some_iff {bits n word i : Nat} :
    accept? bits n word = some i ↔ word * n % 2 ^ bits ≤ zone bits n ∧ word * n / 2 ^ bits = i := by
  simp only [accept?, Nat.shiftRight_eq_div_pow, Nat.one_shiftLeft]
  by_cases h : word * n % 2 ^ bits ≤ zone bits n
  · rw [if_pos h]
    simp [h]
  · rw [if_neg h]
    simp [h]

theorem lt_of_accept? {bits n word i : Nat} (hn : 0 < n) (hword : word < 2 ^ bits)
    (h : accept? bits n word = some i) : i < n := by
  obtain ⟨-, rfl⟩ := accept?_eq_some_iff.1 h
  rw [Nat.div_lt_iff_lt_mul (Nat.two_pow_pos bits), Nat.mul_comm n]
  exact Nat.mul_lt_mul_of_pos_right hword hn

theorem pred_le_zone (bits n : Nat) : n - 1 ≤ zone bits n := by
  refine Nat.sub_le_sub_right ?_ 1
  rw [Nat.shiftLeft_eq]
  exact Nat.le_mul_of_pos_right n (Nat.two_pow_pos _)

theorem exists_accept?_eq {bits n i : Nat} (hi : i < n) (hn : n ≤ 2 ^ bits) :
    ∃ word < 2 ^ bits, accept? bits n word = some i := by
  have hpos : 0 < n := by omega
  have hmod := Nat.mod_lt (i * 2 ^ bits + (n - 1)) hpos
  have hdiv := Nat.div_add_mod (i * 2 ^ bits + (n - 1)) n
  -- the least word whose product with `n` reaches `i` whole words
  set word := (i * 2 ^ bits + (n - 1)) / n with hword
  have hlow : i * 2 ^ bits ≤ word * n := by rw [Nat.mul_comm word]; omega
  have hhigh : word * n ≤ i * 2 ^ bits + (n - 1) := by rw [Nat.mul_comm word]; omega
  obtain ⟨rest, hrest⟩ := Nat.exists_eq_add_of_le hlow
  have hrestlt : rest < 2 ^ bits := by omega
  refine ⟨word, ?_, accept?_eq_some_iff.2 ⟨?_, ?_⟩⟩
  · have hbound : word * n < 2 ^ bits * n := by
      calc word * n ≤ i * 2 ^ bits + (n - 1) := hhigh
        _ < (i + 1) * 2 ^ bits := by rw [Nat.succ_mul]; omega
        _ ≤ n * 2 ^ bits := Nat.mul_le_mul_right _ hi
        _ = 2 ^ bits * n := Nat.mul_comm _ _
    exact Nat.lt_of_mul_lt_mul_right hbound
  · rw [hrest, Nat.mul_add_mod_self_right, Nat.mod_eq_of_lt hrestlt]
    exact (by omega : rest ≤ n - 1).trans (pred_le_zone bits n)
  · rw [hrest, Nat.mul_comm i, Nat.mul_add_div (Nat.two_pow_pos bits), Nat.div_eq_of_lt hrestlt,
      Nat.add_zero]

namespace Source

theorem next_lt (w : Width) (s : Source) : (s.next w).1 < 2 ^ w.bits := by
  cases w with
  | w32 => exact s.next32.1.toNat_lt
  | w64 => exact s.next64.1.toNat_lt

/-! ## Draws -/

/-- Whether the next words that the source gives do not count, up to one that stands for `i`. -/
inductive Draws (w : Width) (n : Nat) : Source → Nat → Source → Prop
  | accepted {s : Source} {i : Nat} (h : accept? w.bits n (s.next w).1 = some i) :
      Draws w n s i (s.next w).2
  | rejected {s after : Source} {i : Nat} (h : accept? w.bits n (s.next w).1 = none)
      (hmore : Draws w n (s.next w).2 i after) : Draws w n s i after

theorem Draws.lt {w : Width} {n i : Nat} {s after : Source} (h : Draws w n s i after) (hn : 0 < n) :
    i < n := by
  induction h with
  | accepted h => exact lt_of_accept? hn (next_lt w _) h
  | rejected _ _ ih => exact ih

theorem draws_of_belowWithin {w : Width} {n tries i : Nat} {s after : Source}
    (h : s.belowWithin w n tries = some (i, after)) : Draws w n s i after := by
  induction tries generalizing s with
  | zero => cases h
  | succ tries ih =>
      rw [belowWithin] at h
      cases ha : accept? w.bits n (s.next w).1 with
      | some j =>
          simp only [ha, Option.some.injEq, Prod.mk.injEq] at h
          obtain ⟨rfl, rfl⟩ := h
          exact .accepted ha
      | none =>
          simp only [ha] at h
          exact .rejected ha (ih h)

theorem draws_of_below {w : Width} {n i : Nat} {s after : Source}
    (h : s.below w n = some (i, after)) : Draws w n s i after :=
  draws_of_belowWithin h

/-! ## Scripts -/

/-- Every word is what a script gives next. -/
theorem exists_next_script (w : Width) {word : Nat} (hword : word < 2 ^ w.bits) :
    ∃ first : UInt64, ∀ more drawn32 drawn64, ∃ after : Source, after.supply = .script more ∧
      Source.next w ⟨.script (first :: more), drawn32, drawn64⟩ = (word, after) := by
  refine ⟨.ofNat word, fun more drawn32 drawn64 => ?_⟩
  cases w with
  | w32 =>
      refine ⟨⟨.script more, drawn32 + 1, drawn64⟩, rfl, ?_⟩
      have hlt : word < 2 ^ 32 := hword
      simp [next, next32, Supply.next32]
      omega
  | w64 =>
      refine ⟨⟨.script more, drawn32, drawn64 + 1⟩, rfl, ?_⟩
      have hlt : word < 2 ^ 64 := hword
      simp [next, next64, Supply.next64]
      omega

theorem exists_below_script (w : Width) {n i : Nat} (hi : i < n) (hn : n ≤ 2 ^ w.bits) :
    ∃ word : UInt64, ∀ more drawn32 drawn64, ∃ after : Source, after.supply = .script more ∧
      Source.below w n ⟨.script (word :: more), drawn32, drawn64⟩ = some (i, after) := by
  obtain ⟨word, hlt, ha⟩ := exists_accept?_eq hi hn
  obtain ⟨first, hfirst⟩ := exists_next_script w hlt
  refine ⟨first, fun more drawn32 drawn64 => ?_⟩
  obtain ⟨after, hafter, hnext⟩ := hfirst more drawn32 drawn64
  refine ⟨after, hafter, ?_⟩
  simp only [below, Supply.horizon, belowWithin, hnext, ha]

end Source

/-! ## Streams -/

namespace Keystream

/-- The same place of a stream, with the words of the next block made as soon as the present one is
used up. -/
def opened (k : Keystream) : Keystream :=
  match k.unread with
  | _ :: _ => k
  | [] =>
    { k with counter := k.counter + 1, unread := (KeyBlock.start k.key k.counter).finish.toList }

theorem next_opened (k : Keystream) : k.opened.next = k.next := by
  obtain ⟨key, counter, _ | ⟨word, more⟩⟩ := k
  · simp only [opened, next]
    generalize (KeyBlock.start key counter).finish = block
    obtain ⟨⟨words⟩, hsize⟩ := block
    cases words with
    | nil => simp at hsize
    | cons word more => rfl
  · rfl

end Keystream

/-- A stream that has its next block ready gives the same numbers. -/
theorem Source.below_opened (w : Width) (n : Nat) (k : Keystream) (drawn32 drawn64 : Nat) :
    below w n ⟨.stream k.opened, drawn32, drawn64⟩ =
      below w n ⟨.stream k, drawn32, drawn64⟩ := by
  have hnext : next w ⟨.stream k.opened, drawn32, drawn64⟩ =
      next w ⟨.stream k, drawn32, drawn64⟩ := by
    cases w <;> simp only [next, next32, next64, Supply.next32, Supply.next64, k.next_opened]
  obtain ⟨tries, htries⟩ : ∃ tries, Keystream.period = tries + 1 := ⟨_, rfl⟩
  simp only [below, Supply.horizon, htries, belowWithin, hnext]

end GrammarSampler

import GrammarSampler.Cost.Table
import Mathlib

/-!
# The order of costs

Costs are linearly ordered, a cost is fixed by the numbers that it does not exceed, and the cost of
a rule is read off its tokens.
-/

namespace GrammarSampler.Cost

instance : LinearOrder Cost where
  le_refl := Cost.le_refl
  le_trans _ _ _ := Cost.le_trans
  le_antisymm _ _ := Cost.le_antisymm
  le_total := Cost.le_total
  lt_iff_le_not_ge a b := ⟨fun h => ⟨(Cost.le_total a b).resolve_right h, h⟩, fun h => h.2⟩
  toDecidableLE := inferInstance

/-! ## Numbers and infinity -/

@[simp]
theorem zero_le (a : Cost) : Cost.finite 0 ≤ a := by cases a <;> simp

@[simp]
theorem infinite_le_iff {a : Cost} : Cost.infinite ≤ a ↔ a = .infinite := by
  cases a <;> simp

theorem eq_of_le_finite_iff {a b : Cost} (h : ∀ n, a ≤ .finite n ↔ b ≤ .finite n) : a = b := by
  apply le_antisymm
  · cases b with
    | finite n => exact (h n).2 le_rfl
    | infinite => simp
  · cases a with
    | finite n => exact (h n).1 le_rfl
    | infinite => simp

theorem le_finite_iff {a : Cost} {n : Nat} : a ≤ .finite n ↔ ∃ m ≤ n, a = .finite m := by
  cases a <;> simp

theorem not_succ_le_zero (a : Cost) : ¬ a.succ ≤ .finite 0 := by
  cases a <;> simp [succ]

@[simp]
theorem succ_le_finite_succ {a : Cost} {n : Nat} : a.succ ≤ .finite (n + 1) ↔ a ≤ .finite n := by
  cases a <;> simp [succ]

/-! ## Rules -/

theorem foldl_max_le_iff {costs : List Cost} {a b : Cost} :
    costs.foldl max a ≤ b ↔ a ≤ b ∧ ∀ cost ∈ costs, cost ≤ b := by
  induction costs generalizing a with
  | nil => simp
  | cons cost costs ih => simp [ih, and_assoc]

theorem ofRule_le_finite_succ_iff {costOf : String → Option Cost} {rule : Rule} {n : Nat} :
    ofRule costOf rule ≤ .finite (n + 1) ↔
      ∀ token ∈ rule.tokens, ∀ cost, costOf token = some cost → cost ≤ .finite n := by
  simp only [ofRule, succ_le_finite_succ, foldl_max_le_iff, zero_le, true_and, List.mem_filterMap]
  exact ⟨fun h token ht cost hc => h cost ⟨token, ht, hc⟩,
    fun h cost ⟨token, ht, hc⟩ => h token ht cost hc⟩

theorem not_ofRule_le_zero (costOf : String → Option Cost) (rule : Rule) :
    ¬ ofRule costOf rule ≤ .finite 0 :=
  not_succ_le_zero _

theorem least?_eq_some_iff {costOf : String → Option Cost} {rules : List Rule} {cost : Cost} :
    least? costOf rules = some cost ↔
      (∃ rule ∈ rules, ofRule costOf rule = cost) ∧ ∀ rule ∈ rules, cost ≤ ofRule costOf rule := by
  simp [least?, List.min?_eq_some_iff]

theorem least?_eq_none_iff {costOf : String → Option Cost} {rules : List Rule} :
    least? costOf rules = none ↔ rules = [] := by
  simp [least?]

end GrammarSampler.Cost

import GrammarSampler.Cost.Table
import GrammarSampler.Proofs.Cost.Least

/-!
# What costs mean

The cost of a symbol is the height of its flattest derivations, and the cost of a rule is that of
the derivations that start with it; where there is no derivation the cost is infinite.
-/

namespace GrammarSampler

/-! ## Costs and heights -/

namespace Cost

/-- Whether a cost is the least height of the derivations in `s`. -/
def Measures (cost : Cost) (s : Set Derivation) : Prop :=
  ∀ n, cost ≤ .finite n ↔ ∃ d ∈ s, d.height ≤ n

variable {cost : Cost} {s : Set Derivation}

theorem Measures.eq_finite_iff (h : cost.Measures s) {n : Nat} :
    cost = .finite n ↔ IsLeast (Derivation.height '' s) n := by
  apply Iff.intro
  · intro hall
    subst hall
    have hleast : ∀ d ∈ s, n ≤ d.height := fun d hd => by
      simpa using (h d.height).2 ⟨d, hd, le_rfl⟩
    obtain ⟨d, hd, hle⟩ := (h n).1 le_rfl
    refine ⟨⟨d, hd, Nat.le_antisymm hle (hleast d hd)⟩, ?_⟩
    rintro _ ⟨d, hd, rfl⟩
    exact hleast d hd
  · intro hall
    obtain ⟨⟨d, hd, rfl⟩, hleast⟩ := hall
    refine eq_of_le_finite_iff fun n => (h n).trans ⟨?_, fun hn => ⟨d, hd, finite_le_finite.1 hn⟩⟩
    intro hall
    obtain ⟨e, he, hn⟩ := hall
    exact finite_le_finite.2 ((hleast ⟨e, he, rfl⟩).trans hn)

theorem Measures.eq_infinite_iff (h : cost.Measures s) : cost = .infinite ↔ s = ∅ := by
  apply Iff.intro
  · intro hall
    subst hall
    refine Set.eq_empty_iff_forall_notMem.2 fun d hd => ?_
    exact not_infinite_le_finite _ ((h d.height).2 ⟨d, hd, le_rfl⟩)
  · intro hall
    subst hall
    cases cost with
    | infinite => rfl
    | finite n => simpa using (h n).1 le_rfl

end Cost

/-! ## The table of a grammar -/

namespace CostTable

variable {g : Grammar} {symbol : String}

theorem symbolCost_ofGrammar (g : Grammar) (symbol : String) :
    (ofGrammar g).symbolCost symbol = ((Cost.ofSymbols g).get? symbol).getD (.finite 0) := by
  have hd := Cost.contains_ofSymbols g symbol
  simp only [symbolCost, ofGrammar, SymbolMap.get?_map, Option.map_map]
  cases hc : (Cost.ofSymbols g).get? symbol with
  | some cost => cases hr : g.rules.get? symbol <;>
      simp_all [Grammar.defines, SymbolMap.contains]
  | none => cases hr : g.rules.get? symbol <;>
      simp_all [Grammar.defines, SymbolMap.contains]

theorem ruleCosts_ofGrammar (g : Grammar) (symbol : String) :
    (ofGrammar g).ruleCosts symbol =
      (g.rulesOf symbol).map (Cost.ofRule (Cost.ofSymbols g).get?) := by
  simp only [ruleCosts, ofGrammar, SymbolMap.get?_map, Option.map_map, Grammar.rulesOf]
  cases g.rules.get? symbol <;> rfl

theorem ruleCost?_eq_some_iff {index : Nat} {cost : Cost} :
    (ofGrammar g).ruleCost? symbol index = some cost ↔
      ∃ rule, (g.rulesOf symbol)[index]? = some rule ∧
        Cost.ofRule (Cost.ofSymbols g).get? rule = cost := by
  rw [ruleCost?, ruleCosts_ofGrammar, List.getElem?_map, Option.map_eq_some_iff]

theorem cheapRules_ofGrammar (g : Grammar) (symbol : String) :
    (ofGrammar g).cheapRules symbol = Cost.cheapest ((ofGrammar g).ruleCosts symbol) := by
  simp only [cheapRules, ruleCosts, ofGrammar, SymbolMap.get?_map, Option.map_map]
  cases g.rules.get? symbol <;> rfl

theorem symbolCost_measures (g : Grammar) (symbol : String) :
    ((ofGrammar g).symbolCost symbol).Measures (Derivation.startingAt g symbol) := by
  intro n
  rw [symbolCost_ofGrammar]
  cases hc : (Cost.ofSymbols g).get? symbol with
  | some cost => exact Cost.le_finite_iff_within hc
  | none =>
      have hd : g.defines symbol = false := by
        rw [← Cost.contains_ofSymbols, SymbolMap.contains, hc]
        rfl
      have hr := Grammar.rulesOf_eq_nil_of_not_defines hd
      exact iff_of_true (by simp) (Derivation.within_of_rulesOf_eq_nil hr n)

theorem ofRule_le_iff_symbolCost {rule : Rule} {n : Nat} :
    Cost.ofRule (Cost.ofSymbols g).get? rule ≤ .finite (n + 1) ↔
      ∀ token ∈ rule.tokens, (ofGrammar g).symbolCost token ≤ .finite n := by
  refine Cost.ofRule_le_finite_succ_iff.trans (forall₂_congr fun token _ => ?_)
  rw [symbolCost_ofGrammar]
  cases (Cost.ofSymbols g).get? token <;> simp

theorem ruleCost_measures {index : Nat} {cost : Cost}
    (hc : (ofGrammar g).ruleCost? symbol index = some cost) :
    cost.Measures (Derivation.startingBy g symbol index) := by
  obtain ⟨rule, hrule, rfl⟩ := ruleCost?_eq_some_iff.1 hc
  intro n
  cases n with
  | zero =>
      refine iff_of_false (Cost.not_ofRule_le_zero _ _) ?_
      intro h
      obtain ⟨d, ⟨-, hi⟩, hh⟩ := h
      cases d <;> simp [Derivation.rule?, Derivation.height] at hi hh
  | succ n =>
      rw [Derivation.exists_height_le_iff_of_rule hrule, ofRule_le_iff_symbolCost]
      exact forall₂_congr fun token _ => symbolCost_measures g token n

/-- Costs are least heights of derivations. -/
theorem costs_eq_least_heights (g : Grammar) (symbol : String) :
    ((∀ n, (ofGrammar g).symbolCost symbol = .finite n ↔
        IsLeast (Derivation.height '' Derivation.startingAt g symbol) n) ∧
      ((ofGrammar g).symbolCost symbol = .infinite ↔ Derivation.startingAt g symbol = ∅)) ∧
    ∀ index : Fin (g.rulesOf symbol).length,
      (∀ n, (ofGrammar g).ruleCost? symbol index = some (.finite n) ↔
        IsLeast (Derivation.height '' Derivation.startingBy g symbol index) n) ∧
      ((ofGrammar g).ruleCost? symbol index = some .infinite ↔
        Derivation.startingBy g symbol index = ∅) := by
  have hs := symbolCost_measures g symbol
  refine ⟨⟨fun n => hs.eq_finite_iff, hs.eq_infinite_iff⟩, fun index => ?_⟩
  obtain ⟨cost, hc⟩ : ∃ cost, (ofGrammar g).ruleCost? symbol index = some cost := by
    simp [ruleCost?, ruleCosts_ofGrammar]
  have hr := ruleCost_measures hc
  simp only [hc, Option.some.injEq]
  exact ⟨fun n => hr.eq_finite_iff, hr.eq_infinite_iff⟩

end CostTable

end GrammarSampler

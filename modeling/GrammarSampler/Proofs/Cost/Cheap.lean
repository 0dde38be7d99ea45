import GrammarSampler.Proofs.Cost.Meaning

/-!
# Cheapest rules

The cheapest rules of a symbol are those of finite cost that no rule of the symbol undercuts. Every
token of such a rule costs less than the symbol, so a derivation that keeps to cheapest rules ends.
-/

namespace GrammarSampler

/-- A cost that is infinite is not cheapest, so it does not matter what stands for the least cost
where there is none. -/
theorem Cost.tied_eq_cheapest (costs : List Cost) : tied costs = cheapest costs := by
  refine List.filterMap_congr fun entry _ => ?_
  obtain ⟨cost, index⟩ := entry
  cases hmin : costs.min? with
  | some least => simp
  | none => cases cost <;> simp [isFinite]

theorem Cost.mem_cheapest_iff {costs : List Cost} {index : Nat} :
    index ∈ cheapest costs ↔
      ∃ n, costs[index]? = some (.finite n) ∧ ∀ cost ∈ costs, .finite n ≤ cost := by
  simp only [← tied_eq_cheapest, tied, List.mem_filterMap, Prod.exists,
    List.mem_zipIdx_iff_getElem?]
  apply Iff.intro
  · intro h
    obtain ⟨cost, place, hcost, hif⟩ := h
    by_cases hc : (cost.isFinite && some cost == costs.min?) = true
    · rw [if_pos hc, Option.some.injEq] at hif
      subst hif
      rw [Bool.and_eq_true, beq_iff_eq] at hc
      cases cost with
      | infinite => simp [isFinite] at hc
      | finite n => exact ⟨n, hcost, (List.min?_eq_some_iff.1 hc.2.symm).2⟩
    · rw [if_neg hc] at hif
      cases hif
  · intro h
    obtain ⟨n, hn, hle⟩ := h
    have hmin := (List.min?_eq_some_iff.2 ⟨List.mem_of_getElem? hn, hle⟩).symm
    exact ⟨.finite n, index, hn, if_pos (by simp [isFinite, hmin])⟩

theorem Cost.cheapest_ne_nil {costs : List Cost} {cost : Cost} {n : Nat} (hmem : cost ∈ costs)
    (hle : cost ≤ .finite n) : cheapest costs ≠ [] := by
  have hcosts : costs.min? ≠ none := by
    rw [Ne, List.min?_eq_none_iff]
    exact List.ne_nil_of_mem hmem
  obtain ⟨least, hleast⟩ := Option.ne_none_iff_exists'.1 hcosts
  obtain ⟨hin, hall⟩ := List.min?_eq_some_iff.1 hleast
  obtain ⟨k, -, rfl⟩ := le_finite_iff.1 ((hall cost hmem).trans hle)
  obtain ⟨index, hindex⟩ := List.mem_iff_getElem?.1 hin
  exact List.ne_nil_of_mem (mem_cheapest_iff.2 ⟨k, hindex, hall⟩)

namespace CostTable

variable {g : Grammar} {symbol : String} {index : Nat}

theorem mem_cheapRules_iff : index ∈ (ofGrammar g).cheapRules symbol ↔
    ∃ n, (ofGrammar g).ruleCost? symbol index = some (.finite n) ∧
      ∀ other cost, (ofGrammar g).ruleCost? symbol other = some cost → .finite n ≤ cost := by
  rw [cheapRules_ofGrammar, Cost.mem_cheapest_iff]
  refine exists_congr fun n => and_congr_right fun _ => ?_
  apply Iff.intro
  · exact fun h other cost hc => h cost (List.mem_of_getElem? hc)
  · intro h cost hc
    obtain ⟨other, ho⟩ := List.mem_iff_getElem?.1 hc
    exact h other cost ho

theorem lt_length_of_mem_cheapRules (h : index ∈ (ofGrammar g).cheapRules symbol) :
    index < (g.rulesOf symbol).length := by
  obtain ⟨n, hn, -⟩ := mem_cheapRules_iff.1 h
  obtain ⟨rule, hrule, -⟩ := ruleCost?_eq_some_iff.1 hn
  obtain ⟨hlt, -⟩ := List.getElem?_eq_some_iff.1 hrule
  exact hlt

theorem length_cheapRules_le (g : Grammar) (symbol : String) :
    ((ofGrammar g).cheapRules symbol).length ≤ (g.rulesOf symbol).length := by
  rw [cheapRules_ofGrammar, Cost.cheapest]
  refine (List.length_filterMap_le _ _).trans ?_
  rw [List.length_zipIdx, ruleCosts_ofGrammar, List.length_map]

theorem exists_ruleCost_le (hr : g.rulesOf symbol ≠ []) {n : Nat}
    (h : (ofGrammar g).symbolCost symbol ≤ .finite n) :
    ∃ other cost, (ofGrammar g).ruleCost? symbol other = some cost ∧ cost ≤ .finite n := by
  obtain ⟨d, ⟨hd, hroot⟩, hheight⟩ := (symbolCost_measures g symbol n).1 h
  cases hd with
  | leaf hl =>
      rw [Derivation.root] at hroot
      rw [hroot] at hl
      exact absurd hl hr
  | @node root other rule ds hrule hroots hchildren =>
      rw [Derivation.root] at hroot
      subst hroot
      have hcost := ruleCost?_eq_some_iff.2 ⟨rule, hrule, rfl⟩
      refine ⟨other, _, hcost, (ruleCost_measures hcost n).2 ⟨_, ⟨⟨?_, rfl⟩, rfl⟩, hheight⟩⟩
      exact .node hrule hroots hchildren

/-- By a cheapest rule costs go down. -/
theorem symbolCost_lt_of_mem_cheapRules (h : index ∈ (ofGrammar g).cheapRules symbol) :
    ∃ n rule, (g.rulesOf symbol)[index]? = some rule ∧
      (ofGrammar g).symbolCost symbol = .finite (n + 1) ∧
      ∀ token ∈ rule.tokens, (ofGrammar g).symbolCost token ≤ .finite n := by
  obtain ⟨n, hn, hleast⟩ := mem_cheapRules_iff.1 h
  obtain ⟨rule, hrule, hcost⟩ := ruleCost?_eq_some_iff.1 hn
  have hr : g.rulesOf symbol ≠ [] := by
    intro hnil
    rw [hnil] at hrule
    cases hrule
  cases n with
  | zero => exact absurd hcost.le (Cost.not_ofRule_le_zero _ _)
  | succ n =>
      refine ⟨n, rule, hrule, Cost.eq_of_le_finite_iff fun k => ?_, ?_⟩
      · constructor
        · intro hk
          obtain ⟨other, cost, hother, hle⟩ := exists_ruleCost_le hr hk
          exact (hleast other cost hother).trans hle
        · intro hk
          obtain ⟨d, ⟨hd, -⟩, hheight⟩ := (ruleCost_measures hn k).1 hk
          exact (symbolCost_measures g symbol k).2 ⟨d, hd, hheight⟩
      · exact ofRule_le_iff_symbolCost.1 hcost.le

theorem cheapRules_eq_nil_iff (hr : g.rulesOf symbol ≠ []) :
    (ofGrammar g).cheapRules symbol = [] ↔ (ofGrammar g).symbolCost symbol = .infinite := by
  constructor
  · intro hnil
    cases hcost : (ofGrammar g).symbolCost symbol with
    | infinite => rfl
    | finite n =>
        obtain ⟨other, cost, hother, hle⟩ := exists_ruleCost_le hr hcost.le
        rw [cheapRules_ofGrammar] at hnil
        exact absurd hnil (Cost.cheapest_ne_nil (List.mem_of_getElem? hother) hle)
  · intro hcost
    rw [List.eq_nil_iff_forall_not_mem]
    intro index hindex
    obtain ⟨n, rule, -, hfinite, -⟩ := symbolCost_lt_of_mem_cheapRules hindex
    rw [hcost] at hfinite
    cases hfinite

/-- No number that a symbol costs is larger than the number of symbols with rules. -/
theorem symbolCost_le_card {n : Nat} (h : (ofGrammar g).symbolCost symbol = .finite n) :
    n ≤ (Cost.expandable g).card := by
  obtain ⟨d, hd, hheight⟩ := (symbolCost_measures g symbol n).1 h.le
  have hwithin := Cost.within_card_expandable ⟨d, hd, hheight⟩
  have hle := (symbolCost_measures g symbol _).2 hwithin
  rwa [h, Cost.finite_le_finite] at hle

theorem symbolCost_le_size {n : Nat} (h : (ofGrammar g).symbolCost symbol = .finite n) :
    n ≤ g.size :=
  (symbolCost_le_card h).trans (Cost.card_expandable_le g)

end CostTable

end GrammarSampler

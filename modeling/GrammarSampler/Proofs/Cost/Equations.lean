import GrammarSampler.Proofs.Cost.Cheap

/-!
# The equations of costs

A rule costs one more than the dearest of its tokens, and a symbol costs what its cheapest rule
does. The costs of a grammar solve these equations. No other costs do, since a solution gives a
number to exactly the symbols that have derivations of that height.
-/

open GrammarSampler.Derivation (Within)

namespace GrammarSampler

/-! ## Costs as numbers -/

namespace Cost

def toENat : Cost → ℕ∞
  | .finite n => n
  | .infinite => ⊤

@[simp]
theorem toENat_le_natCast_iff {cost : Cost} {n : ℕ} : cost.toENat ≤ n ↔ cost ≤ .finite n := by
  cases cost <;> simp [toENat]

theorem toENat_mono : Monotone toENat := by
  intro a b hab
  cases b with
  | infinite => exact le_top
  | finite n => exact toENat_le_natCast_iff.2 hab

theorem cheapest_pairwise_lt (costs : List Cost) : (cheapest costs).Pairwise (· < ·) := by
  have hplaces : costs.zipIdx.Pairwise (·.2 < ·.2) := by
    rw [← List.pairwise_map, List.zipIdx_map_snd]
    exact List.pairwise_lt_range' 1
  refine List.pairwise_filterMap.2 (hplaces.imp fun {a b} hlt i hi j hj => ?_)
  obtain ⟨-, hi⟩ := Option.ite_none_right_eq_some.1 hi
  obtain ⟨-, hj⟩ := Option.ite_none_right_eq_some.1 hj
  cases hi
  cases hj
  exact hlt

end Cost

/-! ## Solutions -/

namespace Grammar

variable {g : Grammar} {cost : String → ℕ∞} {symbol : String} {rule : Rule}

/-- What a token costs where symbols with an entry cost what `cost` says; other tokens cost
nothing. -/
def tokenCost (g : Grammar) (cost : String → ℕ∞) (token : String) : ℕ∞ :=
  if g.defines token then cost token else 0

/-- One more than the dearest token of a rule costs. -/
noncomputable def ruleCost (g : Grammar) (cost : String → ℕ∞) (rule : Rule) : ℕ∞ :=
  1 + rule.tokens.toFinset.sup (g.tokenCost cost)

/-- Whether a symbol with rules always costs what its cheapest rule does, and one that has an entry
without rules costs nothing. -/
structure SolvesCosts (g : Grammar) (cost : String → ℕ∞) : Prop where
  isLeast : ∀ symbol, g.rulesOf symbol ≠ [] →
    IsLeast (g.ruleCost cost '' {rule | rule ∈ g.rulesOf symbol}) (cost symbol)
  eq_zero : ∀ symbol, g.defines symbol = true → g.rulesOf symbol = [] → cost symbol = 0

theorem ruleCost_le_succ_iff {n : ℕ} : g.ruleCost cost rule ≤ (n + 1 : ℕ) ↔
    ∀ token ∈ rule.tokens, g.tokenCost cost token ≤ n := by
  rw [ruleCost, add_comm, Nat.cast_add, Nat.cast_one, ENat.add_le_add_iff_right ENat.one_ne_top,
    Finset.sup_le_iff]
  simp only [List.mem_toFinset]

theorem not_ruleCost_le_zero : ¬ g.ruleCost cost rule ≤ (0 : ℕ) := by
  simp [ruleCost]

theorem tokenCost_of_rules (hr : g.rulesOf symbol ≠ []) : g.tokenCost cost symbol = cost symbol :=
  if_pos (defines_of_rulesOf_ne_nil hr)

theorem SolvesCosts.tokenCost_eq_zero (h : g.SolvesCosts cost) (hr : g.rulesOf symbol = []) :
    g.tokenCost cost symbol = 0 := by
  cases hd : g.defines symbol with
  | false => simp [tokenCost, hd]
  | true => simp [tokenCost, hd, h.eq_zero symbol hd hr]

/-- By induction on the height: a solution is at most `n` exactly where some derivation is. -/
theorem SolvesCosts.tokenCost_le_iff_within (h : g.SolvesCosts cost) (n : ℕ) (symbol : String) :
    g.tokenCost cost symbol ≤ n ↔ Within g symbol n := by
  induction n generalizing symbol with
  | zero =>
      rw [Derivation.within_zero_iff]
      by_cases hr : g.rulesOf symbol = []
      · exact iff_of_true (h.tokenCost_eq_zero hr).le hr
      · refine iff_of_false (fun hle => ?_) hr
        obtain ⟨⟨least, -, hcost⟩, -⟩ := h.isLeast symbol hr
        rw [tokenCost_of_rules hr, ← hcost] at hle
        exact not_ruleCost_le_zero hle
  | succ n ih =>
      rw [Derivation.within_succ_iff]
      by_cases hr : g.rulesOf symbol = []
      · refine iff_of_true ?_ (.inl hr)
        rw [h.tokenCost_eq_zero hr]
        exact zero_le
      · obtain ⟨⟨least, hleast, hcost⟩, hlower⟩ := h.isLeast symbol hr
        rw [tokenCost_of_rules hr, or_iff_right hr]
        simp only [← ih]
        apply Iff.intro
        · intro hle
          exact ⟨least, hleast, ruleCost_le_succ_iff.1 (hcost.trans_le hle)⟩
        · intro hrule
          obtain ⟨rule, hmem, htokens⟩ := hrule
          exact (hlower ⟨rule, hmem, rfl⟩).trans (ruleCost_le_succ_iff.2 htokens)

end Grammar

/-! ## The costs of a table -/

namespace CostTable

variable {g : Grammar} {symbol : String}

/-- The cost of a symbol as a number. -/
def costOf (t : CostTable) (symbol : String) : ℕ∞ := (t.symbolCost symbol).toENat

theorem tokenCost_le_iff {n : ℕ} : g.tokenCost (ofGrammar g).costOf symbol ≤ n ↔
    (ofGrammar g).symbolCost symbol ≤ .finite n := by
  cases hd : g.defines symbol with
  | true => rw [Grammar.tokenCost, if_pos hd, costOf, Cost.toENat_le_natCast_iff]
  | false =>
      have hwithin := Derivation.within_of_rulesOf_eq_nil
        (Grammar.rulesOf_eq_nil_of_not_defines hd) n
      refine iff_of_true ?_ ((symbolCost_measures g symbol n).2 hwithin)
      simp [Grammar.tokenCost, hd]

theorem toENat_ofRule (rule : Rule) :
    (Cost.ofRule (Cost.ofSymbols g).get? rule).toENat = g.ruleCost (ofGrammar g).costOf rule := by
  refine WithTop.eq_of_forall_le_coe_iff fun n => Cost.toENat_le_natCast_iff.trans ?_
  cases n with
  | zero => exact iff_of_false (Cost.not_ofRule_le_zero _ _) Grammar.not_ruleCost_le_zero
  | succ n =>
      rw [ofRule_le_iff_symbolCost]
      refine Iff.trans ?_ Grammar.ruleCost_le_succ_iff.symm
      exact forall₂_congr fun token _ => tokenCost_le_iff.symm

theorem map_toENat_ruleCosts (g : Grammar) (symbol : String) :
    ((ofGrammar g).ruleCosts symbol).map Cost.toENat =
      (g.rulesOf symbol).map (g.ruleCost (ofGrammar g).costOf) := by
  rw [ruleCosts_ofGrammar, List.map_map]
  exact List.map_congr_left fun rule _ => toENat_ofRule rule

theorem symbolCost_eq_zero (hr : g.rulesOf symbol = []) :
    (ofGrammar g).symbolCost symbol = .finite 0 := by
  have hle := (symbolCost_measures g symbol 0).2 (Derivation.within_of_rulesOf_eq_nil hr 0)
  exact le_antisymm hle (Cost.zero_le _)

theorem symbolCost_le_ruleCost {cost : Cost} (hcost : cost ∈ (ofGrammar g).ruleCosts symbol) :
    (ofGrammar g).symbolCost symbol ≤ cost := by
  cases cost with
  | infinite => exact Cost.le_infinite _
  | finite n =>
      obtain ⟨index, hindex⟩ := List.mem_iff_getElem?.1 hcost
      obtain ⟨d, ⟨hd, -⟩, hheight⟩ := (ruleCost_measures hindex n).1 le_rfl
      exact (symbolCost_measures g symbol n).2 ⟨d, hd, hheight⟩

/-- A symbol costs what its cheapest rule does. -/
theorem isLeast_symbolCost (hr : g.rulesOf symbol ≠ []) :
    IsLeast {cost | cost ∈ (ofGrammar g).ruleCosts symbol} ((ofGrammar g).symbolCost symbol) := by
  refine ⟨?_, fun cost => symbolCost_le_ruleCost⟩
  cases hcost : (ofGrammar g).symbolCost symbol with
  | finite n =>
      obtain ⟨index, cost, hindex, hle⟩ := exists_ruleCost_le hr hcost.le
      have hmem := List.mem_of_getElem? hindex
      have heq : cost = .finite n := le_antisymm hle (hcost ▸ symbolCost_le_ruleCost hmem)
      exact heq ▸ hmem
  | infinite =>
      have hcosts : (ofGrammar g).ruleCosts symbol ≠ [] := by
        rw [ruleCosts_ofGrammar]
        simpa using hr
      obtain ⟨cost, hmem⟩ := List.exists_mem_of_ne_nil _ hcosts
      have heq : cost = .infinite := Cost.infinite_le_iff.1 (hcost ▸ symbolCost_le_ruleCost hmem)
      exact heq ▸ hmem

theorem solvesCosts_costOf (g : Grammar) : g.SolvesCosts (ofGrammar g).costOf where
  isLeast symbol hr := by
    have himage := Cost.toENat_mono.map_isLeast (isLeast_symbolCost hr)
    have hset : Cost.toENat '' {cost | cost ∈ (ofGrammar g).ruleCosts symbol} =
        g.ruleCost (ofGrammar g).costOf '' {rule | rule ∈ g.rulesOf symbol} := by
      ext c
      have hmem := congrArg (c ∈ ·) (map_toENat_ruleCosts g symbol)
      simpa using hmem
    exact hset ▸ himage
  eq_zero symbol _ hr := by
    rw [costOf, symbolCost_eq_zero hr]
    rfl

theorem mem_cheapRules_iff_eq {index : Nat} : index ∈ (ofGrammar g).cheapRules symbol ↔
    ∃ n, (ofGrammar g).ruleCost? symbol index = some (.finite n) ∧
      (ofGrammar g).symbolCost symbol = .finite n := by
  rw [mem_cheapRules_iff]
  refine exists_congr fun n => and_congr_right fun hindex => ?_
  have hmem := List.mem_of_getElem? hindex
  apply Iff.intro
  · intro hleast
    have hr : g.rulesOf symbol ≠ [] := by
      intro hr
      rw [ruleCosts_ofGrammar, hr] at hmem
      cases hmem
    obtain ⟨place, hplace⟩ := List.mem_iff_getElem?.1 (isLeast_symbolCost hr).1
    exact le_antisymm (symbolCost_le_ruleCost hmem) (hleast place _ hplace)
  · intro heq other cost hother
    exact heq ▸ symbolCost_le_ruleCost (List.mem_of_getElem? hother)

/-! ## The unique solution -/

/-- Whether a table gives the rules and the symbols of a grammar their costs, and the rules that are
as cheap as their symbol. -/
structure Exact (t : CostTable) (g : Grammar) : Prop where
  ruleCosts_eq : ∀ symbol,
    (t.ruleCosts symbol).map Cost.toENat = (g.rulesOf symbol).map (g.ruleCost t.costOf)
  isLeast : ∀ symbol, g.rulesOf symbol ≠ [] →
    IsLeast {cost | cost ∈ t.ruleCosts symbol} (t.symbolCost symbol)
  eq_zero : ∀ symbol, g.rulesOf symbol = [] → t.symbolCost symbol = .finite 0
  cheapRules_sorted : ∀ symbol, (t.cheapRules symbol).Pairwise (· < ·)
  mem_cheapRules_iff : ∀ symbol index, index ∈ t.cheapRules symbol ↔
    ∃ n, t.ruleCost? symbol index = some (.finite n) ∧ t.symbolCost symbol = .finite n
  cheapRules_eq_nil_iff : ∀ symbol, t.cheapRules symbol = [] ↔
    g.rulesOf symbol = [] ∨ t.symbolCost symbol = .infinite

theorem exact_ofGrammar (g : Grammar) : (ofGrammar g).Exact g where
  ruleCosts_eq := map_toENat_ruleCosts g
  isLeast _ := isLeast_symbolCost
  eq_zero _ := symbolCost_eq_zero
  cheapRules_sorted symbol := by
    rw [cheapRules_ofGrammar]
    exact Cost.cheapest_pairwise_lt _
  mem_cheapRules_iff _ _ := mem_cheapRules_iff_eq
  cheapRules_eq_nil_iff symbol := by
    by_cases hr : g.rulesOf symbol = []
    · rw [cheapRules_ofGrammar, ruleCosts_ofGrammar, hr]
      exact iff_of_true rfl (.inl rfl)
    · rw [or_iff_right hr]
      exact CostTable.cheapRules_eq_nil_iff hr

/-- The costs of a grammar are exact, and they are the only solution of its equations. -/
theorem costs_unique_solution (g : Grammar) :
    (ofGrammar g).Exact g ∧ g.SolvesCosts (ofGrammar g).costOf ∧
      ∀ cost, g.SolvesCosts cost →
        ∀ symbol, g.defines symbol = true → cost symbol = (ofGrammar g).costOf symbol := by
  refine ⟨exact_ofGrammar g, solvesCosts_costOf g, fun cost hcost symbol hd => ?_⟩
  have hsame := WithTop.eq_of_forall_le_coe_iff fun n =>
    (hcost.tokenCost_le_iff_within n symbol).trans
      ((solvesCosts_costOf g).tokenCost_le_iff_within n symbol).symm
  rwa [Grammar.tokenCost, Grammar.tokenCost, if_pos hd, if_pos hd] at hsame

/-- Two symbols that turn into themselves; the first may also turn into a letter. -/
def circling : Grammar :=
  ⟨⟨[("<a>", [⟨["<a>"]⟩, ⟨["x"]⟩]), ("<b>", [⟨["<b>"]⟩])],
    List.pairwise_pair.2 (by decide)⟩⟩

def circlingCost (symbol : String) : ℕ∞ := if symbol = "<b>" then ⊤ else 1

theorem solvesCosts_circling : circling.SolvesCosts circlingCost := by
  have hsymbols : ∀ symbol, circling.defines symbol = true → symbol = "<a>" ∨ symbol = "<b>" := by
    intro symbol hd
    by_contra hne
    obtain ⟨ha, hb⟩ := not_or.1 hne
    simp [circling, Grammar.defines, SymbolMap.contains, SymbolMap.get?,
      SymbolMap.lookup_cons_ite, ha, hb] at hd
  refine ⟨fun symbol hr => ?_, fun symbol hd hr => ?_⟩
  · rcases hsymbols symbol (Grammar.defines_of_rulesOf_ne_nil hr) with rfl | rfl
    · have hletter : circling.ruleCost circlingCost ⟨["x"]⟩ = 1 := by
        have hd : circling.defines "x" = false := by decide
        simp [Grammar.ruleCost, Grammar.tokenCost, hd]
      have hmem : ⟨["x"]⟩ ∈ circling.rulesOf "<a>" := by decide
      refine ⟨⟨⟨["x"]⟩, hmem, hletter⟩, ?_⟩
      rintro _ ⟨rule, -, rfl⟩
      exact le_self_add
    · have hloop : circling.ruleCost circlingCost ⟨["<b>"]⟩ = ⊤ := by
        have hd : circling.defines "<b>" = true := by decide
        simp [Grammar.ruleCost, Grammar.tokenCost, hd, circlingCost]
      have hrules : circling.rulesOf "<b>" = [⟨["<b>"]⟩] := by decide
      simp [hrules, hloop, circlingCost]
  · rcases hsymbols symbol hd with rfl | rfl
    · exact absurd hr (by decide)
    · exact absurd hr (by decide)

theorem costs_unique_solution_circling :
    circling.SolvesCosts circlingCost ∧ (ofGrammar circling).costOf "<a>" = 1 ∧
      (ofGrammar circling).costOf "<b>" = ⊤ := by
  have hunique := (costs_unique_solution circling).2.2 circlingCost solvesCosts_circling
  exact ⟨solvesCosts_circling, (hunique "<a>" (by decide)).symm, (hunique "<b>" (by decide)).symm⟩

end CostTable

end GrammarSampler

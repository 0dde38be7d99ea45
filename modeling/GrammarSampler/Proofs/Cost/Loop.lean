import GrammarSampler.Proofs.Cost.Equations

/-!
# Sweeping until nothing changes

In whatever order each sweep visits the symbols, the sweeps end at the same costs. They end soon,
since `n` sweeps get all costs up to `n` right, and no number that is held on the way is larger than
the number of symbols with rules.
-/

open GrammarSampler.Derivation (Within)

namespace GrammarSampler

/-! ## The greatest cost -/

/-- The greatest number that a symbol of the grammar costs, or zero if there is none. -/
def Grammar.mostCost (g : Grammar) : Nat :=
  g.symbols.toFinset.sup fun symbol => ((CostTable.ofGrammar g).symbolCost symbol).value?.getD 0

namespace CostTable

variable {g : Grammar} {symbol : String} {n : Nat}

theorem le_mostCost (h : (ofGrammar g).symbolCost symbol = .finite n) : n ≤ g.mostCost := by
  cases hd : g.defines symbol with
  | true =>
      have hmem := List.mem_toFinset.2 (Grammar.mem_symbols_iff.2 hd)
      have hle := Finset.le_sup
        (f := fun symbol => ((ofGrammar g).symbolCost symbol).value?.getD 0) hmem
      rw [h] at hle
      exact hle
  | false =>
      rw [symbolCost_eq_zero (Grammar.rulesOf_eq_nil_of_not_defines hd)] at h
      cases h
      exact Nat.zero_le _

theorem mostCost_le_card (g : Grammar) : g.mostCost ≤ (Cost.expandable g).card := by
  refine Finset.sup_le fun symbol _ => ?_
  cases hcost : (ofGrammar g).symbolCost symbol with
  | infinite => exact Nat.zero_le _
  | finite n => exact symbolCost_le_card hcost

theorem within_mostCost (h : Within g symbol n) : Within g symbol g.mostCost := by
  obtain ⟨m, -, hm⟩ := Cost.le_finite_iff.1 ((symbolCost_measures g symbol n).2 h)
  exact Within.mono ((symbolCost_measures g symbol m).1 hm.le) (le_mostCost hm)

theorem ruleCost_le_mostCost {index : Nat}
    (h : (ofGrammar g).ruleCost? symbol index = some (.finite n)) : n ≤ g.mostCost + 1 := by
  obtain ⟨rule, -, hrule⟩ := ruleCost?_eq_some_iff.1 h
  cases n with
  | zero => exact Nat.zero_le _
  | succ n =>
      rw [← Cost.finite_le_finite, ← hrule, ofRule_le_iff_symbolCost]
      intro token ht
      obtain ⟨m, -, hm⟩ := Cost.le_finite_iff.1 (ofRule_le_iff_symbolCost.1 hrule.le token ht)
      rw [hm, Cost.finite_le_finite]
      exact le_mostCost hm

end CostTable

namespace Cost

variable {g : Grammar} {known after : SymbolMap Cost} {order : Nat → List (String × List Rule)}
  {sweeps n : Nat}

theorem sweptBy_mostCost (h : Visits g order) : sweptBy g order g.mostCost = ofSymbols g := by
  refine Settled.unique ⟨sound_sweptBy h _, fun k symbol n _ hw cost hc => ?_⟩ (settled_ofSymbols g)
  rcases Nat.le_total n g.mostCost with hn | hn
  · exact exactTo_sweptBy h _ symbol n hn hw cost hc
  · have hle := exactTo_sweptBy h _ symbol _ le_rfl (CostTable.within_mostCost hw) cost hc
    exact hle.trans (finite_le_finite.2 hn)

/-! ## The loop -/

/--
The loop that sweeps until a sweep changes nothing, from the sweep numbered `n` on: how many sweeps
there have been at its end, the last one included, and the costs that it leaves.
-/
inductive Loops (order : Nat → List (String × List Rule)) :
    Nat → SymbolMap Cost → Nat → SymbolMap Cost → Prop
  | last {n : Nat} {known : SymbolMap Cost} (hsame : sweep (order n) known = known) :
      Loops order n known (n + 1) known
  | more {n sweeps : Nat} {known after : SymbolMap Cost} (hchanged : sweep (order n) known ≠ known)
      (hmore : Loops order (n + 1) (sweep (order n) known) sweeps after) :
      Loops order n known sweeps after

theorem Loops.lt (h : Loops order n known sweeps after) : n < sweeps := by
  induction h with
  | last => exact Nat.lt_succ_self _
  | more _ _ ih => exact Nat.lt_of_succ_lt ih

theorem Loops.unique {other : Nat} {last : SymbolMap Cost} (h : Loops order n known sweeps after)
    (h' : Loops order n known other last) : other = sweeps ∧ last = after := by
  induction h with
  | last hsame =>
      cases h' with
      | last => exact ⟨rfl, rfl⟩
      | more hchanged => exact absurd hsame hchanged
  | more hchanged _ ih =>
      cases h' with
      | last hsame => exact absurd hsame hchanged
      | more _ hmore => exact ih hmore

theorem Loops.settled (horder : Visits g order) (h : Loops order n known sweeps after)
    (hsound : Sound g known) (hzero : ExactTo g 0 known) : Settled g after := by
  induction h with
  | last hsame =>
      exact hsound.settled_of_sweep_eq hzero (horder.inOrder _) (horder.mem _) hsame
  | @more n _ _ _ _ _ ih =>
      have hbelow := sweep_below (hsound.contains_of_mem (horder.inOrder n))
      exact ih (hsound.sweep (horder.inOrder n)) (hbelow.exactTo hzero)

theorem Loops.eq_ofSymbols (horder : Visits g order)
    (h : Loops order 0 (initial g) sweeps after) : after = ofSymbols g :=
  (h.settled horder (sound_initial g) (exactTo_initial g)).unique (settled_ofSymbols g)

/-- By induction on how many sweeps are left until the one numbered by the greatest cost, which
leaves everything as it is. -/
theorem exists_loops_sweptBy (h : Visits g order) {left : Nat} (hleft : n + left = g.mostCost) :
    ∃ sweeps ≤ g.mostCost + 1, ∃ after, Loops order n (sweptBy g order n) sweeps after := by
  induction left generalizing n with
  | zero =>
      obtain rfl : n = g.mostCost := hleft
      have hsettled := sweptBy_mostCost h ▸ settled_ofSymbols g
      exact ⟨_, le_rfl, _, .last (hsettled.sweep_eq (h.inOrder _))⟩
  | succ left ih =>
      by_cases hsame : sweep (order n) (sweptBy g order n) = sweptBy g order n
      · exact ⟨n + 1, by omega, _, .last hsame⟩
      · have hnext : n + 1 + left = g.mostCost := by omega
        obtain ⟨sweeps, hsweeps, after, hmore⟩ := ih hnext
        exact ⟨sweeps, hsweeps, after, .more hsame hmore⟩

/-- The loop comes to an end, and it always ends at the same costs. -/
theorem exists_loops (h : Visits g order) :
    ∃ sweeps ≤ g.mostCost + 1, Loops order 0 (initial g) sweeps (ofSymbols g) := by
  obtain ⟨sweeps, hsweeps, after, hloops⟩ := exists_loops_sweptBy h (Nat.zero_add g.mostCost)
  exact ⟨sweeps, hsweeps, hloops.eq_ofSymbols h ▸ hloops⟩

/-- A bound on the number of sweeps plays no part if it allows for those of the loop. -/
theorem Loops.settle_eq (h : Loops (fun _ => g.rules.entries) n known sweeps after) {fuel : Nat}
    (hfuel : sweeps ≤ n + fuel) : settle g fuel known = after := by
  induction h generalizing fuel with
  | last hsame =>
      obtain ⟨fuel, rfl⟩ := Nat.exists_eq_add_of_le' (Nat.le_of_add_le_add_left hfuel)
      rw [settle, if_pos hsame]
  | more hchanged hmore ih =>
      have hlt := hmore.lt
      obtain ⟨fuel, rfl⟩ := Nat.exists_eq_add_of_le' (show 1 ≤ fuel by omega)
      rw [settle, if_neg hchanged]
      exact ih (by omega)

/-! ## In the middle of a sweep -/

/-- The costs when so many sweeps are done and so many symbols of the next one are visited. -/
def midway (g : Grammar) (order : Nat → List (String × List Rule)) (sweeps visited : Nat) :
    SymbolMap Cost :=
  sweep ((order sweeps).take visited) (sweptBy g order sweeps)

theorem counted_midway (h : Visits g order) (sweeps visited : Nat) :
    Counted g (midway g order sweeps visited) := by
  have hvisited : InOrder g ((order sweeps).take visited) :=
    fun entry he => h.inOrder sweeps entry (List.mem_of_mem_take he)
  exact (counted_sweptBy h sweeps).sweep hvisited (sound_sweptBy h sweeps)

theorem Counted.le_card (h : Counted g known) {symbol : String}
    (hc : known.get? symbol = some (.finite n)) : n ≤ (expandable g).card :=
  (h symbol n hc).trans (Finset.card_le_card (Finset.filter_subset _ _))

/-- The cost of the dearest symbol of a rule, to which the rule adds one. -/
def dearest (costOf : String → Option Cost) (rule : Rule) : Cost :=
  (rule.tokens.filterMap costOf).foldl max (.finite 0)

theorem ofRule_eq_succ_dearest (costOf : String → Option Cost) (rule : Rule) :
    ofRule costOf rule = (dearest costOf rule).succ := rfl

theorem Counted.dearest_le_card (h : Counted g known) {rule : Rule}
    (hn : dearest known.get? rule = .finite n) : n ≤ (expandable g).card := by
  rw [← finite_le_finite, ← hn, dearest, foldl_max_le_iff]
  refine ⟨zero_le _, fun cost hcost => ?_⟩
  obtain ⟨token, -, hc⟩ := List.mem_filterMap.1 hcost
  have hle := (foldl_max_le_iff.1 hn.le).2 cost hcost
  obtain ⟨m, -, rfl⟩ := le_finite_iff.1 hle
  exact finite_le_finite.2 (h.le_card hc)

/-- The sweeps are few and their numbers small. So the sum that makes up the cost of a rule never
overflows a word that has room to count the symbols. -/
theorem sweeps_bounded (g : Grammar) :
    (∃ sweeps ≤ g.mostCost + 1,
      Loops (fun _ => g.rules.entries) 0 (initial g) sweeps (ofSymbols g) ∧
        (∀ other after, Loops (fun _ => g.rules.entries) 0 (initial g) other after →
          other = sweeps ∧ after = ofSymbols g) ∧
        ∀ fuel, sweeps ≤ fuel → settle g fuel (initial g) = ofSymbols g) ∧
    g.mostCost ≤ (expandable g).card ∧
    (∀ symbol index n, (CostTable.ofGrammar g).ruleCost? symbol index = some (.finite n) →
      n ≤ g.mostCost + 1) ∧
    ∀ sweeps visited,
      (∀ symbol n, (midway g (fun _ => g.rules.entries) sweeps visited).get? symbol =
        some (.finite n) → n ≤ (expandable g).card) ∧
      ∀ rule,
        ofRule (midway g (fun _ => g.rules.entries) sweeps visited).get? rule =
          (dearest (midway g (fun _ => g.rules.entries) sweeps visited).get? rule).succ ∧
        ∀ n, dearest (midway g (fun _ => g.rules.entries) sweeps visited).get? rule = .finite n →
          n ≤ (expandable g).card ∧ ∀ bits, g.size + 1 < 2 ^ bits → n + 1 < 2 ^ bits := by
  refine ⟨?_, CostTable.mostCost_le_card g, fun _ _ _ => CostTable.ruleCost_le_mostCost,
    fun sweeps visited => ?_⟩
  · obtain ⟨sweeps, hsweeps, hloops⟩ := exists_loops (visits_entries g)
    refine ⟨sweeps, hsweeps, hloops, fun _ _ => hloops.unique, fun fuel hfuel => ?_⟩
    exact hloops.settle_eq (hfuel.trans (Nat.zero_add fuel).ge)
  · have hcounted := counted_midway (visits_entries g) sweeps visited
    refine ⟨fun symbol n => hcounted.le_card, fun rule => ⟨ofRule_eq_succ_dearest _ rule, ?_⟩⟩
    intro n hn
    have hle := hcounted.dearest_le_card hn
    refine ⟨hle, fun bits hbits => ?_⟩
    have hsize := card_expandable_le g
    omega

/-- A symbol that is found by a long way before it is found by a short one. -/
def detour : Grammar :=
  ⟨⟨[("<a>", [⟨["x"]⟩]), ("<b>", [⟨["<a>"]⟩]), ("<c>", [⟨["<b>", "<b>"]⟩, ⟨["<d>"]⟩]),
      ("<d>", [⟨["y"]⟩])],
    by decide⟩⟩

theorem sweeps_bounded_detour :
    detour.mostCost = 2 ∧ (expandable detour).card = 4 ∧
      (∃ sweeps ≤ 3, Loops (fun _ => detour.rules.entries) 0 (initial detour) sweeps
        (ofSymbols detour)) ∧
      (CostTable.ofGrammar detour).ruleCost? "<c>" 0 = some (.finite 3) ∧
      dearest (midway detour (fun _ => detour.rules.entries) 0 2).get? ⟨["<b>", "<b>"]⟩ =
        .finite 2 ∧
      (midway detour (fun _ => detour.rules.entries) 0 3).get? "<c>" = some (.finite 3) ∧
      (ofSymbols detour).get? "<c>" = some (.finite 2) ∧ 3 ≤ detour.mostCost + 1 ∧
      3 ≤ (expandable detour).card ∧ detour.size + 1 < 2 ^ 64 ∧ 2 + 1 < 2 ^ 64 := by
  obtain ⟨⟨sweeps, hsweeps, hloops, -, -⟩, -, hrules, hmoments⟩ := sweeps_bounded detour
  have hmost : detour.mostCost = 2 := by decide
  have hrule : (CostTable.ofGrammar detour).ruleCost? "<c>" 0 = some (.finite 3) := by decide
  have hdearest : dearest (midway detour (fun _ => detour.rules.entries) 0 2).get?
      ⟨["<b>", "<b>"]⟩ = .finite 2 := by decide
  have hheld : (midway detour (fun _ => detour.rules.entries) 0 3).get? "<c>" =
      some (.finite 3) := by decide
  have hsize : detour.size + 1 < 2 ^ 64 := by decide
  obtain ⟨-, hroom⟩ := ((hmoments 0 2).2 _).2 _ hdearest
  exact ⟨hmost, by decide, ⟨sweeps, by omega, hloops⟩, hrule, hdearest, hheld, by decide,
    hrules _ _ _ hrule, (hmoments 0 3).1 _ _ hheld, hsize, hroom 64 hsize⟩

end Cost

end GrammarSampler

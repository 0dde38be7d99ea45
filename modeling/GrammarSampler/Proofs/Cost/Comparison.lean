import GrammarSampler.Proofs.Cost.Loop
import GrammarSampler.Proofs.Grammar.Rename

/-!
# Comparing the costs of two grammars

Where every rule has a counterpart that asks for no more, derivations carry over and costs do not
rise. So costs depend neither on names nor on the order of rules, and more rules never raise them.
-/

open GrammarSampler.Derivation (Within within_zero_iff within_succ_iff)

namespace GrammarSampler

namespace Grammar

variable {g g' : Grammar} {r : String → String} {p : String → Prop} {x y symbol : String}
  {related : String → String → Prop}

/-! ## Derivations that carry over -/

/--
Whether the rules of every symbol have counterparts among those of a related one. A counterpart has
only tokens that are related to some of the rule.
-/
structure Carries (g g' : Grammar) (related : String → String → Prop) : Prop where
  nil : ∀ x y, related x y → g.rulesOf x = [] → g'.rulesOf y = []
  rule : ∀ x y, related x y → ∀ rule ∈ g.rulesOf x, ∃ other ∈ g'.rulesOf y,
    ∀ token ∈ other.tokens, ∃ source ∈ rule.tokens, related source token

theorem Carries.within (h : g.Carries g' related) {n : Nat} (hrelated : related x y)
    (hwithin : Within g x n) : Within g' y n := by
  induction n generalizing x y with
  | zero => exact within_zero_iff.2 (h.nil x y hrelated (within_zero_iff.1 hwithin))
  | succ n ih =>
      rcases within_succ_iff.1 hwithin with hnil | ⟨rule, hrule, htokens⟩
      · exact Derivation.within_of_rulesOf_eq_nil (h.nil x y hrelated hnil) _
      · obtain ⟨other, hother, hsources⟩ := h.rule x y hrelated rule hrule
        refine within_succ_iff.2 (.inr ⟨other, hother, fun token ht => ?_⟩)
        obtain ⟨source, hs, hst⟩ := hsources token ht
        exact ih hst (htokens source hs)

theorem Corresponds.carries (h : g.Corresponds g' r p) :
    g.Carries g' fun x y => p x ∧ y = r x where
  nil := by
    rintro x _ ⟨hp, rfl⟩ hnil
    rw [h.rulesOf hp, hnil, List.map_nil]
  rule := by
    rintro x _ ⟨hp, rfl⟩ rule hrule
    refine ⟨rule.rename r, h.rulesOf hp ▸ List.mem_map_of_mem hrule, fun token ht => ?_⟩
    obtain ⟨source, hs, rfl⟩ := List.mem_map.1 ht
    exact ⟨source, hs, h.closed x hp rule hrule source hs, rfl⟩

theorem Corresponds.carries_back (h : g.Corresponds g' r p) :
    g'.Carries g fun y x => p x ∧ y = r x where
  nil := by
    rintro _ x ⟨hp, rfl⟩ hnil
    rw [h.rulesOf hp] at hnil
    exact List.map_eq_nil_iff.1 hnil
  rule := by
    rintro _ x ⟨hp, rfl⟩ other hother
    rw [h.rulesOf hp] at hother
    obtain ⟨rule, hrule, rfl⟩ := List.mem_map.1 hother
    refine ⟨rule, hrule, fun token ht => ⟨r token, List.mem_map_of_mem ht, ?_, rfl⟩⟩
    exact h.closed x hp rule hrule token ht

theorem carries_of_subset (hnil : ∀ symbol, g.rulesOf symbol = [] → g'.rulesOf symbol = [])
    (hsubset : ∀ symbol, g.rulesOf symbol ⊆ g'.rulesOf symbol) : g.Carries g' Eq where
  nil := by
    rintro x _ rfl hx
    exact hnil x hx
  rule := by
    rintro x _ rfl rule hrule
    exact ⟨rule, hsubset x hrule, fun token ht => ⟨token, ht, rfl⟩⟩

theorem carries_of_perm (h : ∀ symbol, (g.rulesOf symbol).Perm (g'.rulesOf symbol)) :
    g.Carries g' Eq := by
  refine carries_of_subset (fun symbol hnil => ?_) fun symbol => (h symbol).subset
  rw [← List.nil_perm, ← hnil]
  exact h symbol

theorem addRule_eq_ok_iff {rule : Rule} : addRule symbol rule g = (.ok (), g') ↔
    isBracketed symbol = true ∧ g' = g.append symbol rule := by
  cases h : isBracketed symbol with
  | true =>
      rw [addRule_apply h]
      exact ⟨fun heq => ⟨rfl, (congrArg Prod.snd heq).symm⟩, fun heq => by rw [heq.2]⟩
  | false =>
      rw [addRule_apply_error h]
      refine ⟨fun heq => ?_, fun heq => absurd heq.1 Bool.false_ne_true⟩
      have htold : (.error (.unbracketedKey symbol) : Except Fault Unit) = .ok () :=
        congrArg Prod.fst heq
      cases htold

theorem rulesOf_append_eq_nil_iff {rule : Rule} :
    (g.append symbol rule).rulesOf x = [] ↔ x ≠ symbol ∧ g.rulesOf x = [] := by
  rw [rulesOf_append]
  by_cases h : x = symbol <;> simp [h]

theorem mem_rulesOf_append_iff {rule own : Rule} :
    own ∈ (g.append symbol rule).rulesOf x ↔ own ∈ g.rulesOf x ∨ x = symbol ∧ own = rule := by
  rw [rulesOf_append]
  by_cases h : x = symbol <;> simp [h]

theorem carries_append (hr : g.rulesOf symbol ≠ []) (rule : Rule) :
    g.Carries (g.append symbol rule) Eq := by
  refine carries_of_subset (fun x hnil => ?_) fun x own hown => ?_
  · exact rulesOf_append_eq_nil_iff.2 ⟨fun heq => hr (heq ▸ hnil), hnil⟩
  · exact mem_rulesOf_append_iff.2 (.inl hown)

end Grammar

/-! ## Costs that are not raised -/

namespace CostTable

variable {g g' : Grammar} {r : String → String} {p : String → Prop} {x y symbol : String}
  {order : String → List Nat} {rule : Rule}

theorem symbolCost_le_of_within (h : ∀ n, Within g x n → Within g' y n) :
    (ofGrammar g').symbolCost y ≤ (ofGrammar g).symbolCost x := by
  cases hcost : (ofGrammar g).symbolCost x with
  | infinite => exact Cost.le_infinite _
  | finite n =>
      exact (symbolCost_measures g' y n).2 (h n ((symbolCost_measures g x n).1 hcost.le))

theorem ofRule_congr {other : Rule}
    (h : ∀ n, (∀ token ∈ rule.tokens, (ofGrammar g).symbolCost token ≤ .finite n) ↔
      ∀ token ∈ other.tokens, (ofGrammar g').symbolCost token ≤ .finite n) :
    Cost.ofRule (Cost.ofSymbols g).get? rule = Cost.ofRule (Cost.ofSymbols g').get? other := by
  refine Cost.eq_of_le_finite_iff fun n => ?_
  cases n with
  | zero => exact iff_of_false (Cost.not_ofRule_le_zero _ _) (Cost.not_ofRule_le_zero _ _)
  | succ n => rw [ofRule_le_iff_symbolCost, ofRule_le_iff_symbolCost, h n]

theorem ofRule_eq_of_symbolCost_eq
    (h : ∀ symbol, (ofGrammar g').symbolCost symbol = (ofGrammar g).symbolCost symbol) :
    Cost.ofRule (Cost.ofSymbols g').get? = Cost.ofRule (Cost.ofSymbols g).get? :=
  funext fun rule => ofRule_congr fun n => by simp only [h]

/-! ## Costs that stay the same -/

theorem symbolCost_eq_of_corresponds (h : g.Corresponds g' r p) (hp : p symbol) :
    (ofGrammar g').symbolCost (r symbol) = (ofGrammar g).symbolCost symbol := by
  apply le_antisymm
  · exact symbolCost_le_of_within fun n => h.carries.within ⟨hp, rfl⟩
  · exact symbolCost_le_of_within fun n => h.carries_back.within ⟨hp, rfl⟩

theorem ruleCosts_eq_of_corresponds (h : g.Corresponds g' r p) (hp : p symbol) :
    (ofGrammar g').ruleCosts (r symbol) = (ofGrammar g).ruleCosts symbol := by
  rw [ruleCosts_ofGrammar, ruleCosts_ofGrammar, h.rulesOf hp, List.map_map]
  refine List.map_congr_left fun rule hrule => (ofRule_congr fun n => ?_).symm
  rw [Rule.rename, List.forall_mem_map]
  refine forall₂_congr fun token ht => ?_
  rw [symbolCost_eq_of_corresponds h (h.closed symbol hp rule hrule token ht)]

theorem cheapRules_eq_of_corresponds (h : g.Corresponds g' r p) (hp : p symbol) :
    (ofGrammar g').cheapRules (r symbol) = (ofGrammar g).cheapRules symbol := by
  rw [cheapRules_ofGrammar, cheapRules_ofGrammar, ruleCosts_eq_of_corresponds h hp]

theorem symbolCost_reorder (h : g.Permutes order) (symbol : String) :
    (ofGrammar (g.reorder order)).symbolCost symbol = (ofGrammar g).symbolCost symbol := by
  have hperm := Grammar.rulesOf_reorder_perm h
  apply le_antisymm
  · exact symbolCost_le_of_within fun n =>
      (Grammar.carries_of_perm fun symbol => (hperm symbol).symm).within rfl
  · exact symbolCost_le_of_within fun n => (Grammar.carries_of_perm hperm).within rfl

theorem ruleCosts_reorder (h : g.Permutes order) (symbol : String) :
    (ofGrammar (g.reorder order)).ruleCosts symbol =
      Grammar.picked (order symbol) ((ofGrammar g).ruleCosts symbol) := by
  rw [ruleCosts_ofGrammar, ruleCosts_ofGrammar, Grammar.rulesOf_reorder, Grammar.picked_map,
    ofRule_eq_of_symbolCost_eq (symbolCost_reorder h)]

/-! ## One rule more -/

theorem expansionCost_ofGrammar (g : Grammar) (rule : Rule) :
    (ofGrammar g).expansionCost rule = Cost.ofRule (Cost.ofSymbols g).get? rule := by
  have hcost : (fun symbol => ((ofGrammar g).entries.get? symbol).map (·.cost)) =
      (Cost.ofSymbols g).get? := by
    funext symbol
    have hd := Cost.contains_ofSymbols g symbol
    simp only [ofGrammar, SymbolMap.get?_map, Option.map_map]
    cases hc : (Cost.ofSymbols g).get? symbol <;> cases hr : g.rules.get? symbol <;>
      simp_all [Grammar.defines, SymbolMap.contains]
  rw [expansionCost, hcost]

/-- A derivation by a dear rule is no flatter than another of its symbol, so whatever can be derived
with the rule can be derived without it. -/
theorem within_of_within_append
    (hdear : (ofGrammar g).symbolCost symbol ≤ (ofGrammar g).expansionCost rule) {n : Nat}
    (h : Within (g.append symbol rule) x n) : Within g x n := by
  induction n generalizing x with
  | zero =>
      rw [within_zero_iff, Grammar.rulesOf_append_eq_nil_iff] at h
      exact within_zero_iff.2 h.2
  | succ n ih =>
      rcases within_succ_iff.1 h with hnil | ⟨own, hown, htokens⟩
      · exact Derivation.within_of_rulesOf_eq_nil (Grammar.rulesOf_append_eq_nil_iff.1 hnil).2 _
      · have hflat : ∀ token ∈ own.tokens, Within g token n := fun token ht => ih (htokens token ht)
        rcases Grammar.mem_rulesOf_append_iff.1 hown with hown | ⟨rfl, rfl⟩
        · exact within_succ_iff.2 (.inr ⟨own, hown, hflat⟩)
        · refine (symbolCost_measures g x (n + 1)).1 (hdear.trans ?_)
          rw [expansionCost_ofGrammar, ofRule_le_iff_symbolCost]
          exact fun token ht => (symbolCost_measures g token n).2 (hflat token ht)

/-- A further rule for a symbol with rules never raises a cost. If it is no cheaper than the symbol,
it changes no cost, not even where it leads back to the symbol. -/
theorem further_rule_raises_no_cost (hr : g.rulesOf symbol ≠ [])
    (hadd : Grammar.addRule symbol rule g = (.ok (), g')) :
    (∀ other, (ofGrammar g').symbolCost other ≤ (ofGrammar g).symbolCost other) ∧
    ((ofGrammar g).symbolCost symbol ≤ (ofGrammar g).expansionCost rule →
      (∀ other, (ofGrammar g').symbolCost other = (ofGrammar g).symbolCost other) ∧
      ∀ other, (ofGrammar g').ruleCosts other =
        if other = symbol then
          (ofGrammar g).ruleCosts symbol ++ [(ofGrammar g).expansionCost rule]
        else (ofGrammar g).ruleCosts other) := by
  obtain ⟨-, rfl⟩ := Grammar.addRule_eq_ok_iff.1 hadd
  have hle : ∀ other, (ofGrammar (g.append symbol rule)).symbolCost other ≤
      (ofGrammar g).symbolCost other := fun other =>
    symbolCost_le_of_within fun n => (Grammar.carries_append hr rule).within rfl
  refine ⟨hle, fun hdear => ?_⟩
  have hsame : ∀ other, (ofGrammar (g.append symbol rule)).symbolCost other =
      (ofGrammar g).symbolCost other := fun other =>
    le_antisymm (hle other) (symbolCost_le_of_within fun n => within_of_within_append hdear)
  refine ⟨hsame, fun other => ?_⟩
  rw [ruleCosts_ofGrammar, ofRule_eq_of_symbolCost_eq hsame, Grammar.rulesOf_append]
  split
  · rw [List.map_append, ruleCosts_ofGrammar, expansionCost_ofGrammar, List.map_singleton]
  · rw [ruleCosts_ofGrammar]

theorem further_rule_raises_no_cost_detour :
    (∃ g', Grammar.addRule "<c>" ⟨["z"]⟩ Cost.detour = (.ok (), g') ∧
      (ofGrammar g').symbolCost "<c>" ≤ .finite 2) ∧
    (ofGrammar Cost.detour).expansionCost ⟨["<c>"]⟩ = .finite 3 ∧
    ∃ g', Grammar.addRule "<a>" ⟨["<c>"]⟩ Cost.detour = (.ok (), g') ∧
      (ofGrammar g').symbolCost "<c>" = .finite 2 ∧
      (ofGrammar g').ruleCosts "<a>" = [.finite 1, .finite 3] ∧
      (ofGrammar g').ruleCosts "<c>" = [.finite 3, .finite 2] := by
  have hcheap : Grammar.addRule "<c>" ⟨["z"]⟩ Cost.detour =
      (.ok (), Cost.detour.append "<c>" ⟨["z"]⟩) :=
    Grammar.addRule_eq_ok_iff.2 ⟨by decide, rfl⟩
  have hcircle : Grammar.addRule "<a>" ⟨["<c>"]⟩ Cost.detour =
      (.ok (), Cost.detour.append "<a>" ⟨["<c>"]⟩) :=
    Grammar.addRule_eq_ok_iff.2 ⟨by decide, rfl⟩
  obtain ⟨hle, -⟩ := further_rule_raises_no_cost (by decide) hcheap
  obtain ⟨-, hdear⟩ := further_rule_raises_no_cost (by decide) hcircle
  obtain ⟨hsymbols, hrules⟩ := hdear (by decide)
  refine ⟨⟨_, hcheap, (hle "<c>").trans (by decide)⟩, by decide, _, hcircle, ?_, ?_, ?_⟩
  · exact (hsymbols "<c>").trans (by decide)
  · exact (hrules "<a>").trans (by decide)
  · exact (hrules "<c>").trans (by decide)

end CostTable

end GrammarSampler

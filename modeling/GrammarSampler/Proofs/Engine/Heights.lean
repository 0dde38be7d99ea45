import GrammarSampler.Proofs.Derivation.Parts
import GrammarSampler.Proofs.Engine.Valid

/-!
# Heights of derived trees

No part of a derived tree is flatter than the cost of its rule, and past the depth budget every part
is exactly as high as its symbol costs. So the depth of a tree is bounded by the costs of the
symbols that rules lead to.
-/

namespace GrammarSampler

/-! ## Heights and costs -/

namespace Derivation

variable {g : Grammar} {d : Derivation} {ends ends' : String → Prop}

theorem Follows.mono (h : d.Follows g ends) (hends : ∀ symbol, ends symbol → ends' symbol) :
    d.Follows g ends' := by
  induction h with
  | leaf hl => exact .leaf (hends _ hl)
  | node hrule hroots _ ih => exact .node hrule hroots ih

theorem Complete.exhausts (h : d.Complete g) : d.Exhausts g :=
  Follows.mono h fun _ => Grammar.rulesOf_eq_nil_of_not_defines

theorem Complete.symbolCost_le (h : d.Complete g) :
    (CostTable.ofGrammar g).symbolCost d.root ≤ .finite d.height :=
  (CostTable.symbolCost_measures g d.root d.height).2 ⟨d, ⟨h.exhausts, rfl⟩, Nat.le_refl _⟩

theorem Complete.exists_ruleCost_le {symbol : String} {index : Nat} {ds : List Derivation}
    (h : Complete g (.node symbol index ds)) :
    ∃ n ≤ (node symbol index ds).height,
      (CostTable.ofGrammar g).ruleCost? symbol index = some (.finite n) := by
  cases h with
  | @node _ _ rule _ hrule hroots hchildren =>
      have hcost := CostTable.ruleCost?_eq_some_iff.2 ⟨rule, hrule, rfl⟩
      have hnode : Complete g (.node symbol index ds) := .node hrule hroots hchildren
      have hle := (CostTable.ruleCost_measures hcost (node symbol index ds).height).2
        ⟨_, ⟨⟨hnode.exhausts, rfl⟩, rfl⟩, Nat.le_refl _⟩
      obtain ⟨n, hn, heq⟩ := Cost.le_finite_iff.1 hle
      exact ⟨n, hn, heq ▸ hcost⟩

end Derivation

namespace Setting

variable {g : Grammar} {maxDepth : Nat} {nodeLimit : Option Nat} {depth : Nat} {d e : Derivation}

/-- Past the budget cheapest rules make every derivation as flat as can be. -/
theorem Admits.symbolCost_eq (h : (own g maxDepth nodeLimit).Admits depth d)
    (hdepth : maxDepth < depth) :
    (CostTable.ofGrammar g).symbolCost d.root = .finite d.height := by
  have hlow := h.complete.1.symbolCost_le
  induction h with
  | leaf hl =>
      obtain ⟨n, hn, hcost⟩ := Cost.le_finite_iff.1 hlow
      obtain rfl := Nat.le_zero.1 hn
      exact hcost
  | @node depth rule symbol options ds ho hrule hroots hchildren ih =>
      obtain ⟨-, hcheap⟩ := exists_allows_iff.1 ⟨options, ho, hrule⟩
      obtain ⟨n, used, hused, hcost, htokens⟩ :=
        CostTable.symbolCost_lt_of_mem_cheapRules (hcheap hdepth)
      have hsame : (own g maxDepth nodeLimit).tokens symbol rule = used.tokens := tokens_eq hused
      have hheights : Derivation.heights ds ≤ n := by
        rw [Derivation.heights_le_iff]
        intro d hd
        have heq := ih d hd (Nat.lt_succ_of_lt hdepth) (hchildren d hd).complete.1.symbolCost_le
        have htoken : d.root ∈ used.tokens := by
          rw [← hsame, ← hroots]
          exact List.mem_map_of_mem hd
        have hle := htokens d.root htoken
        rwa [heq, Cost.finite_le_finite] at hle
      rw [Derivation.root] at hlow ⊢
      rw [hcost, Cost.finite_le_finite, Derivation.height] at hlow
      rw [hcost, Derivation.height]
      have hsucc : n = Derivation.heights ds := by omega
      rw [hsucc]

theorem Admits.part {n : Nat} (h : (own g maxDepth nodeLimit).Admits depth d)
    (hpart : d.Part n e) : (own g maxDepth nodeLimit).Admits (depth + n) e := by
  induction hpart generalizing depth with
  | self => exact h
  | @inner symbol rule n children child e hchild _ ih =>
      cases h with
      | node _ _ _ hchildren =>
          have hmore := ih (hchildren child hchild)
          rwa [Nat.add_right_comm, Nat.add_assoc] at hmore

end Setting

/-! ## The depth of a tree -/

/-- The finite costs of the symbols that rules lead to from `start`. -/
def Grammar.costsFrom (g : Grammar) (start : String) : Set Nat :=
  {n | ∃ symbol, g.Reaches start symbol ∧ g.defines symbol = true ∧
    (CostTable.ofGrammar g).symbolCost symbol = .finite n}

/-- Whether `n` is the greatest of some numbers, or zero if there are none. -/
def IsMost (s : Set Nat) (n : Nat) : Prop := IsGreatest s n ∨ s = ∅ ∧ n = 0

theorem Grammar.exists_isMost_costsFrom (g : Grammar) (start : String) :
    ∃ most, IsMost (g.costsFrom start) most := by
  rcases (g.costsFrom start).eq_empty_or_nonempty with hempty | hsome
  · exact ⟨0, .inr ⟨hempty, rfl⟩⟩
  · have hbound : BddAbove (g.costsFrom start) := by
      refine ⟨g.size, fun n hn => ?_⟩
      obtain ⟨symbol, -, -, hcost⟩ := hn
      exact CostTable.symbolCost_le_size hcost
    exact ⟨_, .inl ⟨Nat.sSup_mem hsome hbound, fun n hn => le_csSup hbound hn⟩⟩

theorem IsMost.le {s : Set Nat} {n k : Nat} (h : IsMost s n) (hk : k ∈ s) : k ≤ n := by
  cases h with
  | inl h => exact h.2 hk
  | inr h =>
      rw [h.1] at hk
      exact hk.elim

namespace Setting

variable {g : Grammar} {maxDepth : Nat} {nodeLimit : Option Nat} {d e : Derivation} {n most : Nat}

theorem Admits.height_le_most (h : (own g maxDepth nodeLimit).Admits (maxDepth + 1) e)
    {start : String} (hreach : g.Reaches start e.root) (hmost : IsMost (g.costsFrom start) most) :
    e.height ≤ most := by
  have hcost := h.symbolCost_eq (Nat.lt_succ_self maxDepth)
  cases hd : g.defines e.root with
  | false =>
      rw [h.eq_leaf hd]
      exact Nat.zero_le _
  | true => exact hmost.le ⟨e.root, hreach, hd, hcost⟩

theorem Admits.part_le (h : (own g maxDepth nodeLimit).Admits 0 d)
    (hmost : IsMost (g.costsFrom d.root) most) (hpart : d.Part n e) :
    n ≤ maxDepth + 1 + most := by
  rcases Nat.lt_or_ge n (maxDepth + 1) with hlt | hge
  · omega
  · -- the part that begins right below the budget holds the rest of the way down
    obtain ⟨k, rfl⟩ := Nat.exists_eq_add_of_le hge
    obtain ⟨c, hc, he⟩ := hpart.split
    have hadmits := h.part hc
    rw [Nat.zero_add] at hadmits
    have hheight := hadmits.height_le_most (hc.complete h.complete.1).2 hmost
    have hway := he.add_height_le
    omega

end Setting

/-! ## Trees -/

/-- Whether the heights in a tree agree with the costs of the grammar. The height of a part is the
most expanded nodes on a way down. -/
structure Tree.Priced (g : Grammar) (maxDepth : Nat) (start : String) (t : Tree) : Prop where
  /-- A rule costs something finite, and its node is at least that high. -/
  ruleCost_le : ∀ id symbol rule ids, t.nodes[id]? = some ⟨symbol, .expanded rule ids⟩ →
    ∃ d, t.Shows id d ∧ ∃ n ≤ d.height,
      (CostTable.ofGrammar g).ruleCost? symbol rule = some (.finite n)
  /-- Past the budget a node is as high as its symbol costs. -/
  symbolCost_eq : ∀ depth id symbol rule ids, (depth, id) ∈ t.visits → maxDepth < depth →
    t.nodes[id]? = some ⟨symbol, .expanded rule ids⟩ →
      ∃ d, t.Shows id d ∧ (CostTable.ofGrammar g).symbolCost symbol = .finite d.height
  depth_le : ∃ most, IsMost (g.costsFrom start) most ∧ t.depth ≤ maxDepth + 1 + most

namespace Strategy

variable {g : Grammar} {maxDepth : Nat} {nodeLimit : Option Nat} {strategy : Strategy}
  {d : Derivation}

theorem exists_part_of_visit (h : (Setting.own g maxDepth nodeLimit).Admits 0 d) {depth id : Nat}
    (hv : (depth, id) ∈ (strategy.treeOf d).visits) :
    ∃ e, d.Part depth e ∧ (strategy.treeOf d).Shows id e ∧
      (Setting.own g maxDepth nodeLimit).Admits depth e := by
  rw [visits_treeOf] at hv
  obtain ⟨n, e, hdepth, hpart, hshows⟩ :=
    Tree.exists_part_of_mem_spread d (strategy.shows_treeOf d) hv
  have hadmits := h.part hpart
  rw [Nat.zero_add] at hdepth hadmits
  obtain rfl : depth = n := hdepth
  exact ⟨e, hpart, hshows, hadmits⟩

theorem depth_treeOf_le (h : (Setting.own g maxDepth nodeLimit).Admits 0 d) {most : Nat}
    (hmost : IsMost (g.costsFrom d.root) most) :
    (strategy.treeOf d).depth ≤ maxDepth + 1 + most := by
  have hall : ∀ depth ∈ (strategy.treeOf d).walk.map (·.1), depth ≤ maxDepth + 1 + most := by
    intro depth hdepth
    obtain ⟨⟨_, node⟩, hw, rfl⟩ := List.mem_map.1 hdepth
    rw [Tree.walk_eq, List.mem_filterMap] at hw
    obtain ⟨⟨depth, id⟩, hv, hseen⟩ := hw
    obtain ⟨_, -, heq⟩ := Option.map_eq_some_iff.1 hseen
    cases heq
    obtain ⟨e, hpart, -⟩ := exists_part_of_visit h hv
    exact h.part_le hmost hpart
  rw [Tree.depth, List.foldl_eq_foldr]
  exact List.max_le_of_forall_le _ _ hall

theorem priced_treeOf (h : (Setting.own g maxDepth nodeLimit).Admits 0 d) :
    (strategy.treeOf d).Priced g maxDepth d.root where
  ruleCost_le := by
    intro id symbol rule ids hn
    obtain ⟨hlt, -⟩ := Array.getElem?_eq_some_iff.1 hn
    obtain ⟨depth, hv⟩ := strategy.exists_visit_of_lt d hlt
    obtain ⟨e, -, hshows, hadmits⟩ := exists_part_of_visit h hv
    obtain ⟨ds, rfl⟩ := hshows.exists_node hn
    exact ⟨_, hshows, hadmits.complete.1.exists_ruleCost_le⟩
  symbolCost_eq := by
    intro depth id symbol rule ids hv hdepth hn
    obtain ⟨e, -, hshows, hadmits⟩ := exists_part_of_visit h hv
    obtain ⟨ds, rfl⟩ := hshows.exists_node hn
    exact ⟨_, hshows, hadmits.symbolCost_eq hdepth⟩
  depth_le := by
    obtain ⟨most, hmost⟩ := g.exists_isMost_costsFrom d.root
    exact ⟨most, hmost, depth_treeOf_le h hmost⟩

end Strategy

/-! ## Derived trees -/

/-- A derivation that succeeds gives a tree whose heights the costs foretell, whatever its choices
are drawn from. -/
theorem derived_tree_priced (g : Grammar) (strategy : Strategy) (nodeLimit : Option Nat)
    (start : String) (maxDepth : Nat) :
    (∀ source tree after,
      derive g (.ofGrammar g) strategy nodeLimit start maxDepth source = some (.ok tree, after) →
        tree.Priced g maxDepth start) ∧
    ∀ (σ : Type) (choose : Chooser σ) (source : σ) (after : Growth σ),
      choose.Obeys (strategy.setting g maxDepth nodeLimit) →
        (strategy.setting g maxDepth nodeLimit).grow strategy choose start source =
          some (.ok (), after) →
        after.tree.Priced g maxDepth start := by
  have hgrow : ∀ (σ : Type) (choose : Chooser σ) (source : σ) (after : Growth σ),
      choose.Obeys (strategy.setting g maxDepth nodeLimit) →
        (strategy.setting g maxDepth nodeLimit).grow strategy choose start source =
          some (.ok (), after) →
        after.tree.Priced g maxDepth start := by
    intro σ choose source after hobeys hgrow
    rw [strategy.setting_eq_own] at hobeys hgrow
    obtain ⟨d, hyields⟩ := (Setting.grow_eq_ok_iff hobeys).1 hgrow
    rw [hyields.tree, ← hyields.root]
    exact Strategy.priced_treeOf hyields.admits
  exact ⟨fun source tree after hderive =>
    hgrow Source Source.choose source _ (Source.obeys_choose _) (derive_eq_ok_iff.1 hderive), hgrow⟩

theorem derived_nested_priced :
    derive .nested (.ofGrammar .nested) .levelOrder (some 5) "<s>" 0
        (.ofScript [9223372036854775808]) = some (.ok .nested, ⟨.script [], 1, 1⟩) ∧
      Tree.nested.Priced .nested 0 "<s>" := by
  have hderive : derive .nested (.ofGrammar .nested) .levelOrder (some 5) "<s>" 0
      (.ofScript [9223372036854775808]) = some (.ok .nested, ⟨.script [], 1, 1⟩) := by
    decide +kernel
  have hpriced := derived_tree_priced .nested .levelOrder (some 5) "<s>" 0
  have hgrow := derive_eq_ok_iff.1 hderive
  exact ⟨hderive, hpriced.2 Source Source.choose _ _ (Source.obeys_choose _) hgrow⟩

end GrammarSampler

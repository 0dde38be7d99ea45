import GrammarSampler.Proofs.Engine.Valid

/-!
# Budgets with room to spare

A derivation looks at its depth budget only where it chooses a rule. If a tree is expanded nowhere
below a level that two budgets both reach, then whichever of them leads to the tree, the other does
so too, by the same choices.
-/

namespace GrammarSampler

/-! ## Trees that end above a level -/

/-- Whether no node below level `n` is expanded. -/
def Tree.ExpandsWithin (t : Tree) (n : Nat) : Prop :=
  ∀ depth node, (depth, node) ∈ t.walk → ∀ rule ids, node.state = .expanded rule ids → depth ≤ n

section

variable {strategy : Strategy} {d : Derivation} {n : Nat}

theorem Strategy.sight_mem_walk {entry : Site × Node} (h : entry ∈ strategy.lay d) :
    sight entry ∈ (strategy.treeOf d).walk := by
  have hvisit : entry.1.place ∈ (strategy.treeOf d).visits :=
    (strategy.visits_perm d).mem_iff.2 (List.mem_map_of_mem (f := (·.1.place)) h)
  rw [Tree.walk_eq, List.mem_filterMap]
  refine ⟨entry.1.place, hvisit, ?_⟩
  rw [Tree.seen?, Site.place, strategy.holds_treeOf d entry h]
  rfl

/-- All rules of such a tree are chosen down to the level. -/
theorem Strategy.depth_le_of_mem_picks (h : (strategy.treeOf d).ExpandsWithin n)
    {pick : Site × Nat} (hpick : pick ∈ picks (strategy.lay d)) : pick.1.depth ≤ n := by
  obtain ⟨⟨site, symbol, state⟩, hentry, hsome⟩ := List.mem_filterMap.1 hpick
  cases state with
  | leaf => cases hsome
  | pending => cases hsome
  | expanded rule ids =>
      cases hsome
      exact h _ _ (strategy.sight_mem_walk hentry) rule ids rfl

mutual

theorem Tree.add_height_le_of_preorder {depth : Nat} : (d : Derivation) →
    (∀ entry ∈ Tree.preorder depth d, ∀ rule ids, entry.2.state = .expanded rule ids →
      entry.1 ≤ n) → d.height = 0 ∨ depth + d.height ≤ n + 1
  | .leaf _, _ | .pending _, _ => .inl rfl
  | .node _ _ ds, h => by
      rw [preorder, List.forall_mem_cons] at h
      have hroot : depth ≤ n := h.1 _ _ rfl
      have hbelow := Tree.add_heights_le_of_preorderAll ds h.2
      rw [Derivation.height]
      omega

theorem Tree.add_heights_le_of_preorderAll {depth : Nat} : (ds : List Derivation) →
    (∀ entry ∈ Tree.preorderAll depth ds, ∀ rule ids, entry.2.state = .expanded rule ids →
      entry.1 ≤ n) → Derivation.heights ds = 0 ∨ depth + Derivation.heights ds ≤ n + 1
  | [], _ => .inl rfl
  | d :: ds, h => by
      rw [preorderAll, List.forall_mem_append] at h
      have hfirst := Tree.add_height_le_of_preorder d h.1
      have hmore := Tree.add_heights_le_of_preorderAll ds h.2
      rw [Derivation.heights]
      omega

end

theorem Strategy.height_le_of_expandsWithin (h : (strategy.treeOf d).ExpandsWithin n) :
    d.height ≤ n + 1 := by
  have hwalk := Tree.map_bare_walk (strategy.shows_treeOf d) (strategy.size_treeOf d)
  have hheight := @Tree.add_height_le_of_preorder n 0 d fun entry hentry rule ids hstate => by
    rw [← hwalk] at hentry
    obtain ⟨⟨depth, symbol, state⟩, hseen, rfl⟩ := List.mem_map.1 hentry
    rw [Tree.bare_fst]
    cases state with
    | leaf => cases hstate
    | pending => cases hstate
    | expanded rule ids => exact h _ _ hseen rule ids rfl
  omega

end

/-! ## Other budgets -/

namespace Setting

variable {σ : Type} {s : Setting} {choose : Chooser σ} {strategy : Strategy} {start : String}
  {source : σ} {after : Growth σ} {d : Derivation} {m n : Nat}

/-- The same setting with another depth budget. -/
def withBudget (s : Setting) (n : Nat) : Setting := { s with maxDepth := n }

/-- Down to both budgets the options are the same. -/
theorem options_withBudget {symbol : String} {depth : Nat} (hm : depth ≤ s.maxDepth)
    (hn : depth ≤ n) : (s.withBudget n).options symbol depth = s.options symbol depth := by
  by_cases hr : s.grammar.rulesOf symbol = []
  · rw [options_eq_emptyRuleSet hr]
    exact options_eq_emptyRuleSet hr
  · rw [options_eq_any hr hm]
    exact options_eq_any hr hn

theorem Admits.withBudget {depth : Nat} (h : s.Admits depth d) (hm : m ≤ s.maxDepth) (hn : m ≤ n)
    (hheight : depth + d.height ≤ m + 1) : (s.withBudget n).Admits depth d := by
  induction h with
  | leaf hdefines => exact .leaf hdefines
  | @node depth _ symbol _ _ ho hrule hroots _ ih =>
      rw [Derivation.height] at hheight
      have hdepth : depth ≤ m := by omega
      have hsame : (s.withBudget n).options symbol depth = s.options symbol depth :=
        options_withBudget (hdepth.trans hm) (hdepth.trans hn)
      refine .node (hsame.trans ho) hrule hroots fun child hchild => ih child hchild ?_
      have hbelow := Derivation.heights_le_iff.1 le_rfl child hchild
      omega

theorem Choices.withBudget {picks : List (Site × Nat)} {last : σ}
    (h : s.Choices choose source picks last) (hm : m ≤ s.maxDepth) (hn : m ≤ n)
    (hdepth : ∀ pick ∈ picks, pick.1.depth ≤ m) :
    (s.withBudget n).Choices choose source picks last := by
  induction picks generalizing source with
  | nil => exact h
  | cons pick picks ih =>
      obtain ⟨hpick, hpicks⟩ := List.forall_mem_cons.1 hdepth
      obtain ⟨options, middle, ho, hchoose, hmore⟩ := h
      have hsame : (s.withBudget n).options pick.1.symbol pick.1.depth =
          s.options pick.1.symbol pick.1.depth :=
        options_withBudget (hpick.trans hm) (hpick.trans hn)
      exact ⟨options, middle, hsame.trans ho, hchoose, ih hmore hpicks⟩

/-- What one budget yields the other yields, if the tree ends above a level that both reach. -/
theorem Yields.withBudget (h : s.Yields strategy choose start source after d)
    (hm : m ≤ s.maxDepth) (hn : m ≤ n) (hwithin : after.tree.ExpandsWithin m) :
    (s.withBudget n).Yields strategy choose start source after d := by
  rw [h.tree] at hwithin
  have hheight := Strategy.height_le_of_expandsWithin hwithin
  have hlevels : m + 1 ≤ (s.withBudget n).levels := by
    have hpos : 0 < 1 <<< 64 := by decide
    have hbudget : (s.withBudget n).maxDepth = n := rfl
    rw [levels, hbudget]
    omega
  exact ⟨h.root, h.admits.withBudget hm hn (by omega), hheight.trans hlevels,
    h.choices.withBudget hm hn fun _ => Strategy.depth_le_of_mem_picks hwithin, h.tree, h.fits⟩

theorem grow_withBudget_eq_ok (hobeys : choose.Obeys s) (hstill : choose.Obeys (s.withBudget n))
    (hm : m ≤ s.maxDepth) (hn : m ≤ n) (hwithin : after.tree.ExpandsWithin m)
    (h : s.grow strategy choose start source = some (.ok (), after)) :
    (s.withBudget n).grow strategy choose start source = some (.ok (), after) := by
  obtain ⟨d, hyields⟩ := (grow_eq_ok_iff hobeys).1 h
  exact (grow_eq_ok_iff hstill).2 ⟨d, hyields.withBudget hm hn hwithin⟩

end Setting

/-- A budget that is not used up has no influence. Of two budgets the one leads to a tree that is
expanded nowhere below the smaller just if the other does, with the same names of nodes and with the
same source left, whatever the choices are drawn from. -/
theorem spare_budget_irrelevant (g : Grammar) (strategy : Strategy) (nodeLimit : Option Nat)
    (start : String) (m n : Nat) (hmn : m ≤ n) :
    (∀ source tree after, tree.ExpandsWithin m →
      (derive g (.ofGrammar g) strategy nodeLimit start m source = some (.ok tree, after) ↔
        derive g (.ofGrammar g) strategy nodeLimit start n source = some (.ok tree, after))) ∧
    ∀ (σ : Type) (choose : Chooser σ) (source : σ) (after : Growth σ),
      choose.Obeys (strategy.setting g m nodeLimit) →
      choose.Obeys (strategy.setting g n nodeLimit) → after.tree.ExpandsWithin m →
        ((strategy.setting g m nodeLimit).grow strategy choose start source =
            some (.ok (), after) ↔
          (strategy.setting g n nodeLimit).grow strategy choose start source =
            some (.ok (), after)) := by
  have hgrow : ∀ (σ : Type) (choose : Chooser σ) (source : σ) (after : Growth σ),
      choose.Obeys (strategy.setting g m nodeLimit) →
      choose.Obeys (strategy.setting g n nodeLimit) → after.tree.ExpandsWithin m →
        ((strategy.setting g m nodeLimit).grow strategy choose start source =
            some (.ok (), after) ↔
          (strategy.setting g n nodeLimit).grow strategy choose start source =
            some (.ok (), after)) := by
    intro σ choose source after hsmall hlarge hwithin
    exact ⟨Setting.grow_withBudget_eq_ok hsmall hlarge le_rfl hmn hwithin,
      Setting.grow_withBudget_eq_ok hlarge hsmall hmn le_rfl hwithin⟩
  refine ⟨fun source tree after hwithin => ?_, hgrow⟩
  rw [derive_eq_ok_iff, derive_eq_ok_iff]
  exact hgrow Source Source.choose source _ (Source.obeys_choose _) (Source.obeys_choose _) hwithin

theorem spare_budget_irrelevant_nested :
    1 ≤ 3 ∧ Tree.nested.ExpandsWithin 1 ∧
      derive .nested (.ofGrammar .nested) .levelOrder (some 5) "<s>" 1
        (.ofScript [9223372036854775808]) = some (.ok .nested, ⟨.script [], 0, 2⟩) ∧
      derive .nested (.ofGrammar .nested) .levelOrder (some 5) "<s>" 3
        (.ofScript [9223372036854775808]) = some (.ok .nested, ⟨.script [], 0, 2⟩) := by
  have hderive : derive .nested (.ofGrammar .nested) .levelOrder (some 5) "<s>" 1
      (.ofScript [9223372036854775808]) = some (.ok .nested, ⟨.script [], 0, 2⟩) := by
    decide +kernel
  have hwithin : Tree.nested.ExpandsWithin 1 := by
    have hall : ∀ entry ∈ Tree.nested.walk, 1 < entry.1 → entry.2.state = .leaf := by decide
    intro depth node hwalk rule ids hstate
    by_contra hdepth
    cases hstate.symm.trans (hall _ hwalk (Nat.not_le.1 hdepth))
  have hspare := spare_budget_irrelevant .nested .levelOrder (some 5) "<s>" 1 3 (by decide)
  exact ⟨by decide, hwithin, hderive, (hspare.1 _ _ _ hwithin).1 hderive⟩

end GrammarSampler

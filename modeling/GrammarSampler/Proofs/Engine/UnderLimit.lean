import GrammarSampler.Proofs.Engine.Limit

/-!
# Trees under a limit

The limit of nodes is looked at when a child has been added, so a root alone is never too much. The
trees that are derived under a limit are those that fit it and, even under the limit 0, those that
are only a root.
-/

namespace GrammarSampler

variable {σ : Type} {g : Grammar} {start : String} {d : Derivation}

/-! ## Bare roots -/

theorem Derivation.size_pos (d : Derivation) : 0 < d.size := by
  rw [d.size_eq]
  exact Nat.succ_pos _

theorem Derivation.size_eq_one_iff : d.size = 1 ↔ d.children = [] := by
  rw [d.size_eq, Nat.add_eq_right]
  apply Iff.intro
  · intro hsizes
    exact List.length_eq_zero_iff.1 (Nat.le_zero.1 (hsizes ▸ length_le_sizes d.children))
  · intro hchildren
    rw [hchildren, sizes]

/-- Whether a tree is only a root, because the start has no entry or the rule for it is empty. -/
inductive Tree.Bare (g : Grammar) (start : String) : Tree → Prop
  | leaf (hdefines : g.defines start = false) : Bare g start ⟨#[⟨start, .leaf⟩]⟩
  | expanded {index : Nat} (hrule : (g.rulesOf start)[index]? = some ⟨[]⟩) :
      Bare g start ⟨#[⟨start, .expanded index []⟩]⟩

theorem Tree.Bare.size_eq_one {t : Tree} (h : t.Bare g start) : t.size = 1 := by
  cases h with
  | leaf => rfl
  | expanded => rfl

theorem Strategy.treeOf_leaf (strategy : Strategy) (symbol : String) :
    strategy.treeOf (.leaf symbol) = ⟨#[⟨symbol, .leaf⟩]⟩ := by
  cases strategy with
  | levelOrder =>
      simp [treeOf, lay, LevelOrder.lay, LevelOrder.adjacent, LevelOrder.nodeAt,
        Derivation.children, Tree.ofNodes]
  | depthFirst => rfl

theorem Strategy.treeOf_node_nil (strategy : Strategy) (symbol : String) (index : Nat) :
    strategy.treeOf (.node symbol index []) = ⟨#[⟨symbol, .expanded index []⟩]⟩ := by
  cases strategy with
  | levelOrder =>
      simp [treeOf, lay, LevelOrder.lay, LevelOrder.adjacent, LevelOrder.nodeAt,
        Derivation.children, Tree.ofNodes]
  | depthFirst => rfl

theorem Strategy.bare_treeOf_iff (strategy : Strategy) (h : d.Complete g) :
    (strategy.treeOf d).Bare g d.root ↔ d.size = 1 := by
  apply Iff.intro
  · intro hbare
    rw [← strategy.size_treeOf d, hbare.size_eq_one]
  · intro hsize
    have hchildren := Derivation.size_eq_one_iff.1 hsize
    cases h with
    | leaf hdefines =>
        rw [strategy.treeOf_leaf]
        exact .leaf hdefines
    | @node _ _ rule children hrule hroots =>
        obtain rfl : children = [] := hchildren
        obtain ⟨tokens⟩ := rule
        obtain rfl : [] = tokens := hroots
        rw [strategy.treeOf_node_nil]
        exact .expanded hrule

/-! ## Derived trees -/

namespace Setting

variable {maxDepth limit : Nat} {strategy : Strategy} {choose : Chooser σ} {source : σ}
  {after : Growth σ}

theorem size_of_grow (hobeys : choose.Obeys (strategy.setting g maxDepth none))
    (h : (strategy.setting g maxDepth none).grow strategy choose start source =
      some (.ok (), after)) :
    0 < after.tree.size ∧ (after.tree.Bare g start ↔ after.tree.size = 1) := by
  rw [strategy.setting_eq_own] at hobeys h
  obtain ⟨d, hyields⟩ := (grow_eq_ok_iff hobeys).1 h
  rw [hyields.tree, ← hyields.root, strategy.size_treeOf]
  exact ⟨d.size_pos, strategy.bare_treeOf_iff hyields.admits.complete.1⟩

/-- Neither the options nor the chooser see the limit, so it only decides which trees are left. -/
theorem grow_under_limit_iff (hobeys : choose.Obeys (strategy.setting g maxDepth none)) :
    (strategy.setting g maxDepth (some limit)).grow strategy choose start source =
        some (.ok (), after) ↔
      (strategy.setting g maxDepth none).grow strategy choose start source =
          some (.ok (), after) ∧
        (after.tree.size ≤ limit ∨ after.tree.Bare g start) := by
  have hiff := @grow_limited_eq_ok_iff σ (strategy.setting g maxDepth (some limit)) choose
    strategy start source limit after rfl
  have hunlimited : (strategy.setting g maxDepth (some limit)).unlimited =
      strategy.setting g maxDepth none := rfl
  rw [hiff, hunlimited, and_congr_right_iff]
  intro hrun
  obtain ⟨hpos, hbare⟩ := size_of_grow hobeys hrun
  rw [hbare]
  omega

theorem size_le_limit_iff (hobeys : choose.Obeys (strategy.setting g maxDepth none))
    (h : (strategy.setting g maxDepth (some limit)).grow strategy choose start source =
      some (.ok (), after)) :
    after.tree.size ≤ limit ↔ 0 < limit := by
  obtain ⟨hrun, hsize⟩ := (grow_under_limit_iff hobeys).1 h
  obtain ⟨hpos, hbare⟩ := size_of_grow hobeys hrun
  rw [hbare] at hsize
  omega

end Setting

/-- Under a limit those of the trees are derived that have no more nodes than it, and those that are
only a root. So all of them keep to the limit if it is positive, and none does if it is 0. -/
theorem derived_trees_under_limit (g : Grammar) (strategy : Strategy) (start : String)
    (maxDepth limit : Nat) :
    (∀ (σ : Type) (choose : Chooser σ) (source : σ) (after : Growth σ),
      choose.Obeys (strategy.setting g maxDepth none) →
        ((strategy.setting g maxDepth (some limit)).grow strategy choose start source =
            some (.ok (), after) ↔
          (strategy.setting g maxDepth none).grow strategy choose start source =
              some (.ok (), after) ∧
            (after.tree.size ≤ limit ∨ after.tree.Bare g start)) ∧
        ((strategy.setting g maxDepth (some limit)).grow strategy choose start source =
            some (.ok (), after) →
          (after.tree.size ≤ limit ↔ 0 < limit))) ∧
    ∀ (source : Source) (tree : Tree) (after : Source),
      (derive g (.ofGrammar g) strategy (some limit) start maxDepth source =
          some (.ok tree, after) ↔
        derive g (.ofGrammar g) strategy none start maxDepth source = some (.ok tree, after) ∧
          (tree.size ≤ limit ∨ tree.Bare g start)) ∧
      (derive g (.ofGrammar g) strategy (some limit) start maxDepth source =
          some (.ok tree, after) →
        (tree.size ≤ limit ↔ 0 < limit)) := by
  constructor
  · intro σ choose source after hobeys
    exact ⟨Setting.grow_under_limit_iff hobeys, Setting.size_le_limit_iff hobeys⟩
  · intro source tree after
    have hobeys := Source.obeys_choose (strategy.setting g maxDepth none)
    rw [derive_eq_ok_iff, derive_eq_ok_iff]
    exact ⟨Setting.grow_under_limit_iff hobeys, Setting.size_le_limit_iff hobeys⟩

/-- Nothing or a letter. -/
def Grammar.optional : Grammar :=
  ⟨⟨[("<o>", [⟨[]⟩, ⟨["a"]⟩])], List.pairwise_singleton _ _⟩⟩

theorem derived_trees_under_limit_optional :
    (derive .optional (.ofGrammar .optional) .levelOrder (some 2) "<o>" 0
        (.ofScript [9223372036854775808]) =
          some (.ok ⟨#[⟨"<o>", .expanded 1 [1]⟩, ⟨"a", .leaf⟩]⟩, ⟨.script [], 0, 1⟩) ∧
      ((⟨#[⟨"<o>", .expanded 1 [1]⟩, ⟨"a", .leaf⟩]⟩ : Tree).size ≤ 2 ↔ 0 < 2)) ∧
    (Strategy.depthFirst.setting .optional 0 (some 0)).grow .depthFirst Source.choose "<o>"
        (.ofScript [0]) =
          some (.ok (), ⟨⟨#[⟨"<o>", .expanded 0 []⟩]⟩, ⟨.script [], 0, 1⟩⟩) ∧
      ((⟨#[⟨"<o>", .expanded 0 []⟩]⟩ : Tree).size ≤ 0 ↔ 0 < 0) := by
  have htwo : derive .optional (.ofGrammar .optional) .levelOrder (some 2) "<o>" 0
      (.ofScript [9223372036854775808]) =
        some (.ok ⟨#[⟨"<o>", .expanded 1 [1]⟩, ⟨"a", .leaf⟩]⟩, ⟨.script [], 0, 1⟩) := by
    decide +kernel
  have hfree : derive .optional (.ofGrammar .optional) .depthFirst none "<o>" 0 (.ofScript [0]) =
      some (.ok ⟨#[⟨"<o>", .expanded 0 []⟩]⟩, ⟨.script [], 0, 1⟩) := by
    decide +kernel
  obtain ⟨-, hderive⟩ := derived_trees_under_limit .optional .levelOrder "<o>" 0 2
  obtain ⟨hgrow, -⟩ := derived_trees_under_limit .optional .depthFirst "<o>" 0 0
  obtain ⟨hiff, hsize⟩ := hgrow Source Source.choose (.ofScript [0]) _ (Source.obeys_choose _)
  have hzero := hiff.2 ⟨derive_eq_ok_iff.1 hfree, .inr (.expanded rfl)⟩
  exact ⟨⟨htwo, (hderive _ _ _).2 htwo⟩, hzero, hsize hzero⟩

/-- Even under the limit 0 there is a node. -/
theorem not_size_le_limit :
    ¬ ∀ (g : Grammar) (strategy : Strategy) (start : String) (maxDepth limit : Nat)
      (source after : Source) (tree : Tree),
      derive g (.ofGrammar g) strategy (some limit) start maxDepth source =
        some (.ok tree, after) → tree.size ≤ limit := by
  intro hall
  have hderive : derive .optional (.ofGrammar .optional) .levelOrder (some 0) "x" 5
      (.ofScript []) = some (.ok ⟨#[⟨"x", .leaf⟩]⟩, .ofScript []) := by
    decide +kernel
  exact absurd (hall _ _ _ _ _ _ _ _ hderive) (by decide)

end GrammarSampler

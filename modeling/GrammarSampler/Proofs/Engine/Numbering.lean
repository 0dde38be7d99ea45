import GrammarSampler.Proofs.Engine.Valid

/-!
# Numbers of nodes

A node is named by its place in the tree. Depth first these numbers are the order of a walk. In
level order they go down level by level, and the children of a node have adjacent numbers, below
those of the children of any later node.
-/

namespace GrammarSampler

/-! ## Numbered trees -/

namespace Tree

/-- Whether the nodes are numbered in the order in which a walk visits them. -/
structure NumberedByWalk (t : Tree) : Prop where
  map_snd_visits : t.visits.map (·.2) = List.range t.size
  map_snd_walk : t.walk.map (·.2) = t.nodes.toList

/-- Whether the nodes are numbered level by level, and those of a level as their parents are. -/
structure NumberedByLevels (t : Tree) : Prop where
  /-- Every node has one depth. -/
  visits_perm : (t.visits.map (·.2)).Perm (List.range t.size)
  depth_le : ∀ m i n j, (m, i) ∈ t.visits → (n, j) ∈ t.visits → i ≤ j → m ≤ n
  children_adjacent : ∀ node ∈ t.nodes,
    ∃ first, node.children = List.range' first node.children.length
  children_lt : ∀ (i j : Nat) (node other : Node), i < j → t.nodes[i]? = some node →
    t.nodes[j]? = some other → ∀ c ∈ node.children, ∀ e ∈ other.children, c < e

end Tree

/-! ## Level order -/

namespace LevelOrder

variable {id : Nat} {queue : List (Site × Derivation)} {entry : Site × Node}

theorem children_nodeAt (id : Nat) (d : Derivation) :
    (nodeAt id d).children = List.range' id d.children.length := by
  cases d <;> rfl

theorem children_of_mem_lay (h : entry ∈ lay id queue) :
    ∃ first, id ≤ first ∧
      entry.2.children = List.range' first entry.2.children.length := by
  fun_induction lay id queue with
  | case1 => cases h
  | case2 id site d queue ih =>
      rcases List.mem_cons.1 h with rfl | h
      · exact ⟨id, Nat.le_refl id, by rw [children_nodeAt, List.length_range']⟩
      · obtain ⟨first, hfirst, hchildren⟩ := ih h
        exact ⟨first, Nat.le_of_add_right_le hfirst, hchildren⟩

/-- The numbers that the first in a queue gives to its children are used up for those behind it. -/
theorem children_lt_of_lay (id : Nat) (queue : List (Site × Derivation)) :
    (lay id queue).Pairwise fun entry other =>
      ∀ c ∈ entry.2.children, ∀ e ∈ other.2.children, c < e := by
  fun_induction lay id queue with
  | case1 => exact List.Pairwise.nil
  | case2 id site d queue ih =>
      refine List.pairwise_cons.2 ⟨fun other hother c hc e he => ?_, ih⟩
      rw [children_nodeAt, List.mem_range'_1] at hc
      obtain ⟨first, hfirst, hchildren⟩ := children_of_mem_lay hother
      rw [hchildren, List.mem_range'_1] at he
      exact hc.2.trans_le (hfirst.trans he.1)

end LevelOrder

namespace Tree

/-- Level by level, depths grow with the places of the entries. -/
theorem Leveled.fst_le {l m : List (Nat × Nat)} (h : Leveled l m)
    (hids : l.map (·.2) = List.range l.length) {a b : Nat × Nat} (ha : a ∈ m) (hb : b ∈ m)
    (hab : a.2 ≤ b.2) : a.1 ≤ b.1 := by
  have hat : ∀ x ∈ m, l[x.2]? = some x := by
    intro x hx
    obtain ⟨n, hn⟩ := List.mem_iff_getElem?.1 (h.mem_iff.2 hx)
    obtain ⟨hlt, -⟩ := List.getElem?_eq_some_iff.1 hn
    have hid : (l.map (·.2))[n]? = some n := by rw [hids, List.getElem?_range hlt]
    rw [List.getElem?_map, hn, Option.map_some, Option.some.injEq] at hid
    rwa [hid]
  obtain ⟨hlta, hla⟩ := List.getElem?_eq_some_iff.1 (hat a ha)
  obtain ⟨hltb, hlb⟩ := List.getElem?_eq_some_iff.1 (hat b hb)
  rcases Nat.lt_or_eq_of_le hab with hlt | heq
  · have hle := List.pairwise_iff_getElem.1 h.sorted a.2 b.2 hlta hltb hlt
    rwa [hla, hlb] at hle
  · have hsame := hat a ha
    rw [heq, hat b hb, Option.some.injEq] at hsame
    rw [hsame]

end Tree

/-! ## Layouts -/

namespace Strategy

theorem numberedByWalk_treeOf (d : Derivation) : (depthFirst.treeOf d).NumberedByWalk where
  map_snd_visits := by
    have hlength := depthFirst.length_lay d
    rw [visits_depthFirst, List.map_map, size_treeOf, ← hlength, ← map_id_lay]
    rfl
  map_snd_walk := by
    have horder := depthFirst.order_treeOf d
    rw [order] at horder
    rw [horder, List.map_map, treeOf, Tree.nodes_ofNodes]
    rfl

theorem numberedByLevels_treeOf (d : Derivation) : (levelOrder.treeOf d).NumberedByLevels where
  visits_perm := by
    rw [size_treeOf]
    exact levelOrder.visits_perm_range d
  depth_le m i n j hi hj hij := by
    have hids : ((levelOrder.lay d).map (·.1.place)).map (·.2) =
        List.range ((levelOrder.lay d).map (·.1.place)).length := by
      rw [List.map_map, List.length_map, ← map_id_lay]
      rfl
    exact (leveled_levelOrder d).fst_le hids hi hj hij
  children_adjacent node hnode := by
    rw [treeOf, Tree.nodes_ofNodes, List.mem_toArray] at hnode
    obtain ⟨entry, hentry, rfl⟩ := List.mem_map.1 hnode
    obtain ⟨first, -, hchildren⟩ := LevelOrder.children_of_mem_lay hentry
    exact ⟨first, hchildren⟩
  children_lt i j node other hij hi hj := by
    rw [treeOf, Tree.nodes_ofNodes, List.getElem?_toArray] at hi hj
    obtain ⟨hlti, rfl⟩ := List.getElem?_eq_some_iff.1 hi
    obtain ⟨hltj, rfl⟩ := List.getElem?_eq_some_iff.1 hj
    have hpairwise : ((levelOrder.lay d).map (·.2)).Pairwise fun node other =>
        ∀ c ∈ node.children, ∀ e ∈ other.children, c < e :=
      List.pairwise_map.2 (LevelOrder.children_lt_of_lay 1 _)
    exact List.pairwise_iff_getElem.1 hpairwise i j hlti hltj hij

/-- Whether the nodes of a tree are numbered in the order of the strategy. -/
def Numbers (strategy : Strategy) (t : Tree) : Prop :=
  match strategy with
  | .depthFirst => t.NumberedByWalk
  | .levelOrder => t.NumberedByLevels

theorem numbers_treeOf (strategy : Strategy) (d : Derivation) :
    strategy.Numbers (strategy.treeOf d) := by
  cases strategy with
  | depthFirst => exact numberedByWalk_treeOf d
  | levelOrder => exact numberedByLevels_treeOf d

end Strategy

/-! ## Derived trees -/

/-- Depth first nodes are numbered as a walk visits them, and in level order level by level,
whatever the choices are drawn from. -/
theorem derived_tree_numbered (g : Grammar) (strategy : Strategy) (nodeLimit : Option Nat)
    (start : String) (maxDepth : Nat) :
    (∀ source tree after,
      derive g (.ofGrammar g) strategy nodeLimit start maxDepth source = some (.ok tree, after) →
        strategy.Numbers tree) ∧
    ∀ (σ : Type) (choose : Chooser σ) (source : σ) (after : Growth σ),
      choose.Obeys (strategy.setting g maxDepth nodeLimit) →
        (strategy.setting g maxDepth nodeLimit).grow strategy choose start source =
          some (.ok (), after) →
        strategy.Numbers after.tree := by
  have hgrow : ∀ (σ : Type) (choose : Chooser σ) (source : σ) (after : Growth σ),
      choose.Obeys (strategy.setting g maxDepth nodeLimit) →
        (strategy.setting g maxDepth nodeLimit).grow strategy choose start source =
          some (.ok (), after) →
        strategy.Numbers after.tree := by
    intro σ choose source after hobeys hgrow
    obtain ⟨d, hyields⟩ := (Setting.grow_eq_ok_iff hobeys).1 hgrow
    rw [hyields.tree]
    exact strategy.numbers_treeOf d
  exact ⟨fun source tree after hderive =>
    hgrow Source Source.choose source _ (Source.obeys_choose _) (derive_eq_ok_iff.1 hderive), hgrow⟩

theorem derived_nested_numbered :
    derive .nested (.ofGrammar .nested) .levelOrder (some 5) "<s>" 0
        (.ofScript [9223372036854775808]) = some (.ok .nested, ⟨.script [], 1, 1⟩) ∧
      Tree.nested.NumberedByLevels ∧
    ∃ tree : Tree,
      derive .nested (.ofGrammar .nested) .depthFirst (some 5) "<s>" 0
        (.ofScript [9223372036854775808]) = some (.ok tree, ⟨.script [], 1, 1⟩) ∧
      tree.nodes[2]? = some ⟨"<s>", .expanded 0 [3]⟩ ∧ tree.NumberedByWalk := by
  have hlevels : derive .nested (.ofGrammar .nested) .levelOrder (some 5) "<s>" 0
      (.ofScript [9223372036854775808]) = some (.ok .nested, ⟨.script [], 1, 1⟩) := by
    decide +kernel
  have hwalk : derive .nested (.ofGrammar .nested) .depthFirst (some 5) "<s>" 0
      (.ofScript [9223372036854775808]) = some (.ok ⟨#[⟨"<s>", .expanded 1 [1, 2, 4]⟩,
        ⟨"(", .leaf⟩, ⟨"<s>", .expanded 0 [3]⟩, ⟨"a", .leaf⟩, ⟨")", .leaf⟩]⟩,
        ⟨.script [], 1, 1⟩) := by
    decide +kernel
  exact ⟨hlevels, (derived_tree_numbered .nested .levelOrder (some 5) "<s>" 0).1 _ _ _ hlevels,
    _, hwalk, rfl, (derived_tree_numbered .nested .depthFirst (some 5) "<s>" 0).1 _ _ _ hwalk⟩

end GrammarSampler

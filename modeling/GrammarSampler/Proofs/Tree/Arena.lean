import GrammarSampler.Proofs.Tree.Walk

/-!
# Traversals of an arena

The nodes of a tree stand in a list and name their children. If children come after their parents
and no node is a child twice, a derivation hangs on the root. Then the loops over a stack of nodes
end, and they compute what recursion over that derivation computes.
-/

namespace GrammarSampler

namespace Derivation

mutual

/-- The most edges on a way down. -/
def depth : Derivation → Nat
  | .leaf _ | .pending _ => 0
  | .node _ _ children => depths children

/-- The most edges on a way down from a node with these children. -/
def depths : List Derivation → Nat
  | [] => 0
  | d :: more => max (depth d + 1) (depths more)

end

end Derivation

namespace Tree

variable {t : Tree}

/-! ## Arenas -/

/-- Whether children come after their parents and hang in one place each. Some nodes may still wait
for their rules, and some may hang nowhere. -/
structure Arena (t : Tree) : Prop where
  size_pos : 0 < t.size
  child_lt : ∀ node ∈ t.nodes, ∀ child ∈ node.children, child < t.size
  lt_child : ∀ (id : Nat) (node : Node), t.nodes[id]? = some node →
    ∀ child ∈ node.children, id < child
  nodup : (t.nodes.toList.flatMap Node.children).Nodup

theorem mem_childrenOf_iff {id child : Nat} :
    child ∈ t.childrenOf id ↔ ∃ node, t.nodes[id]? = some node ∧ child ∈ node.children := by
  rw [childrenOf]
  cases t.nodes[id]? <;> simp

theorem childrenOf_eq {id : Nat} {node : Node} (h : t.nodes[id]? = some node) :
    t.childrenOf id = node.children := by
  simp [childrenOf, h]

theorem exists_node_of_lt {id : Nat} (h : id < t.size) : ∃ node, t.nodes[id]? = some node :=
  ⟨t.nodes[id], Array.getElem?_eq_getElem h⟩

namespace Arena

variable {id other child : Nat} {node : Node}

theorem lt_of_mem_childrenOf (h : t.Arena) (hchild : child ∈ t.childrenOf id) :
    id < child ∧ child < t.size := by
  obtain ⟨node, hnode, hmem⟩ := mem_childrenOf_iff.1 hchild
  exact ⟨h.lt_child id node hnode child hmem,
    h.child_lt node (Array.mem_of_getElem? hnode) child hmem⟩

theorem nodup_children (h : t.Arena) (hnode : t.nodes[id]? = some node) : node.children.Nodup :=
  (List.nodup_flatMap.1 h.nodup).1 node
    (Array.mem_toList_iff.2 (Array.mem_of_getElem? hnode))

/-- No node has two parents. -/
theorem parent_unique (h : t.Arena) (hid : child ∈ t.childrenOf id)
    (hother : child ∈ t.childrenOf other) : id = other := by
  have hapart : ∀ {i j : Nat}, child ∈ t.childrenOf i → child ∈ t.childrenOf j → ¬ i < j := by
    intro i j hi hj hlt
    obtain ⟨node, hnode, hmem⟩ := mem_childrenOf_iff.1 hi
    obtain ⟨last, hlast, hmore⟩ := mem_childrenOf_iff.1 hj
    obtain ⟨hsize, hget⟩ := Array.getElem?_eq_some_iff.1 hnode
    obtain ⟨hlater, hfinal⟩ := Array.getElem?_eq_some_iff.1 hlast
    have hpair := List.pairwise_iff_getElem.1 (List.nodup_flatMap.1 h.nodup).2 i j (by simpa)
      (by simpa) hlt
    simp only [Function.onFun, Array.getElem_toList, hget, hfinal] at hpair
    exact hpair hmem hmore
  have hbefore := hapart hid hother
  have hafter := hapart hother hid
  omega

end Arena

/-- Whether a node hangs so many levels below the root. -/
inductive Hangs (t : Tree) : Nat → Nat → Prop
  | root : Hangs t 0 0
  | child {depth id child : Nat} (hparent : Hangs t depth id) (hchild : child ∈ t.childrenOf id) :
      Hangs t (depth + 1) child

theorem Arena.lt_size_of_hangs (h : t.Arena) {depth id : Nat} (hid : t.Hangs depth id) :
    id < t.size := by
  cases hid with
  | root => exact h.size_pos
  | child _ hchild => exact (h.lt_of_mem_childrenOf hchild).2

/-! ## What hangs on a node -/

theorem exists_showsAll {ids : List Nat} (h : ∀ id ∈ ids, ∃ d, t.Shows id d) :
    ∃ ds, t.ShowsAll ids ds := by
  induction ids with
  | nil => exact ⟨[], trivial⟩
  | cons id ids ih =>
      obtain ⟨⟨d, hd⟩, hmore⟩ := List.forall_mem_cons.1 h
      obtain ⟨ds, hds⟩ := ih hmore
      exact ⟨d :: ds, hd, hds⟩

/-- A derivation hangs on every node: children are later, and there are only so many nodes. -/
theorem Arena.exists_shows (h : t.Arena) {id : Nat} (hid : id < t.size) : ∃ d, t.Shows id d := by
  induction hrest : t.size - id using Nat.strongRecOn generalizing id with
  | _ rest ih =>
      obtain ⟨⟨symbol, state⟩, hnode⟩ := exists_node_of_lt hid
      cases state with
      | leaf => exact ⟨.leaf symbol, hnode⟩
      | pending => exact ⟨.pending symbol, hnode⟩
      | expanded rule ids =>
          have hbelow : ∀ child ∈ ids, ∃ d, t.Shows child d := by
            intro child hchild
            obtain ⟨hlater, hlt⟩ :=
              h.lt_of_mem_childrenOf (mem_childrenOf_iff.2 ⟨_, hnode, hchild⟩)
            exact ih (t.size - child) (by omega) hlt rfl
          obtain ⟨ds, hds⟩ := exists_showsAll hbelow
          exact ⟨.node symbol rule ds, ids, hnode, hds⟩

/-! ## The loops -/

/-- The loop of a walk, which visits the first node of the stack and puts its children before the
rest. It is stuck at a name without a node, and it lists something only if it ends. -/
inductive Walks (t : Tree) : List (Nat × Nat) → List (Nat × Nat) → Prop
  | done : Walks t [] []
  | visit {depth id : Nat} {node : Node} {stack visits : List (Nat × Nat)}
      (hnode : t.nodes[id]? = some node)
      (hmore : Walks t (node.children.map (depth + 1, ·) ++ stack) visits) :
      Walks t ((depth, id) :: stack) ((depth, id) :: visits)

/-- The loop that collects the texts of the nodes, with the same stack but without depths. -/
inductive Collects (t : Tree) : List Nat → List String → Prop
  | done : Collects t [] []
  | visit {id : Nat} {node : Node} {stack : List Nat} {texts : List String}
      (hnode : t.nodes[id]? = some node) (hmore : Collects t (node.children ++ stack) texts) :
      Collects t (id :: stack) (node.ownText :: texts)

section

variable {stack visits : List (Nat × Nat)} {fuel : Nat}

theorem Walks.visitsFrom_eq (h : t.Walks stack visits) (hfuel : visits.length ≤ fuel) :
    t.visitsFrom fuel stack = visits := by
  induction h generalizing fuel with
  | done => cases fuel <;> rfl
  | visit hnode _ ih =>
      cases fuel with
      | zero => exact absurd hfuel (Nat.not_succ_le_zero _)
      | succ fuel =>
          rw [visitsFrom, hnode]
          exact congrArg _ (ih (Nat.le_of_succ_le_succ hfuel))

theorem Walks.map_seen (h : t.Walks stack visits) :
    (visits.filterMap t.seen?).map some = visits.map t.seen? := by
  induction h with
  | done => rfl
  | @visit depth id node _ _ hnode _ ih =>
      have hseen : t.seen? (depth, id) = some (depth, node) := by simp [seen?, hnode]
      rw [List.filterMap_cons_some hseen, List.map_cons, List.map_cons, ih, hseen]

/-- The two loops visit the same nodes. -/
theorem Walks.collects (h : t.Walks stack visits) :
    t.Collects (stack.map (·.2)) ((visits.filterMap t.seen?).map (·.2.ownText)) := by
  induction h with
  | done => exact .done
  | @visit depth id node stack visits hnode _ ih =>
      have hseen : t.seen? (depth, id) = some (depth, node) := by simp [seen?, hnode]
      rw [List.map_append, List.map_map] at ih
      simp only [Function.comp_def, List.map_id'] at ih
      rw [List.filterMap_cons_some hseen, List.map_cons, List.map_cons]
      exact .visit hnode ih

end

mutual

theorem walks_of_shows {depth id : Nat} {stack visits : List (Nat × Nat)} :
    (d : Derivation) → t.Shows id d → t.Walks stack visits →
      t.Walks ((depth, id) :: stack) (t.spread depth id d ++ visits)
  | .leaf _, hd, hw | .pending _, hd, hw => .visit hd hw
  | .node _ _ ds, hd, hw => by
      obtain ⟨hnode, hds⟩ := hd.lookup
      exact .visit hnode (walks_of_showsAll ds hds hw)

theorem walks_of_showsAll {depth : Nat} {stack visits : List (Nat × Nat)} :
    {ids : List Nat} → (ds : List Derivation) → t.ShowsAll ids ds → t.Walks stack visits →
      t.Walks (ids.map (depth, ·) ++ stack) (t.spreadAll depth ids ds ++ visits)
  | [], [], _, hw => hw
  | _ :: _, d :: ds, hds, hw => by
      rw [spreadAll, List.append_assoc]
      exact walks_of_shows d hds.1 (walks_of_showsAll ds hds.2 hw)
  | [], _ :: _, hds, _ | _ :: _, [], hds, _ => hds.elim

end

/-! ## What is visited -/

/-- What holds whenever a walk looks at its stack: the nodes visited before and those on the stack
are different nodes at their true depths, and the children of a visited node are among them. -/
structure Covers (t : Tree) (before stack : List (Nat × Nat)) : Prop where
  nodup : ((before ++ stack).map (·.2)).Nodup
  hangs : ∀ visit ∈ before ++ stack, t.Hangs visit.1 visit.2
  root : (0, 0) ∈ before ++ stack
  parent : ∀ visit ∈ before ++ stack, visit.2 = 0 ∨
    ∃ earlier ∈ before, visit.2 ∈ t.childrenOf earlier.2
  children : ∀ visit ∈ before, ∀ child ∈ t.childrenOf visit.2,
    (visit.1 + 1, child) ∈ before ++ stack

namespace Covers

variable {before stack visits : List (Nat × Nat)} {depth id : Nat} {node : Node}

theorem start (t : Tree) : t.Covers [] [(0, 0)] where
  nodup := List.nodup_singleton 0
  hangs _ hv := List.mem_singleton.1 hv ▸ .root
  root := List.mem_singleton.2 rfl
  parent _ hv := .inl (congrArg Prod.snd (List.mem_singleton.1 hv))
  children _ hv := nomatch hv

/-- A node that is visited is new to the walk, and so are its children, as it is their parent. -/
theorem nodup_step (h : t.Covers before ((depth, id) :: stack)) (ht : t.Arena)
    (hnode : t.nodes[id]? = some node) :
    ((before ++ [(depth, id)] ++ (node.children.map (depth + 1, ·) ++ stack)).map
      (·.2)).Nodup := by
  have hperm : ((before ++ [(depth, id)] ++ (node.children.map (depth + 1, ·) ++ stack)).map
      (·.2)).Perm (node.children ++ (before ++ (depth, id) :: stack).map (·.2)) := by
    simp only [List.map_append, List.map_map, Function.comp_def, List.map_id', List.map_cons,
      List.append_assoc, List.cons_append, List.nil_append]
    refine .trans ?_ (List.perm_append_comm_assoc (before.map (·.2)) node.children _)
    refine List.Perm.append_left _ ?_
    exact (@List.perm_middle _ id node.children (stack.map (·.2))).symm
  refine hperm.nodup_iff.2 (List.nodup_append'.2 ⟨ht.nodup_children hnode, h.nodup, ?_⟩)
  intro child hchild hmem
  have hbelow : child ∈ t.childrenOf id := mem_childrenOf_iff.2 ⟨node, hnode, hchild⟩
  obtain ⟨visit, hvisit, rfl⟩ := List.mem_map.1 hmem
  rcases h.parent visit hvisit with hroot | ⟨earlier, hearlier, hparent⟩
  · have hlater := (ht.lt_of_mem_childrenOf hbelow).1
    omega
  · -- its parent would have been visited before
    have hsame : earlier.2 = id := ht.parent_unique hparent hbelow
    have hnodup := h.nodup
    rw [List.map_append, List.map_cons, List.nodup_middle, List.nodup_cons, ← hsame] at hnodup
    exact hnodup.1 (List.mem_append_left _ (List.mem_map_of_mem (f := (·.2)) hearlier))

theorem step (h : t.Covers before ((depth, id) :: stack)) (ht : t.Arena)
    (hnode : t.nodes[id]? = some node) :
    t.Covers (before ++ [(depth, id)]) (node.children.map (depth + 1, ·) ++ stack) := by
  have hchildren := childrenOf_eq hnode
  have hkeep : before ++ (depth, id) :: stack ⊆
      before ++ [(depth, id)] ++ (node.children.map (depth + 1, ·) ++ stack) := by
    intro visit hv
    simp only [List.mem_append, List.mem_cons, List.not_mem_nil, or_false] at hv ⊢
    tauto
  have hfrom : ∀ visit ∈ before ++ [(depth, id)] ++ (node.children.map (depth + 1, ·) ++ stack),
      visit ∈ before ++ (depth, id) :: stack ∨
        ∃ child ∈ t.childrenOf id, visit = (depth + 1, child) := by
    intro visit hv
    simp only [hchildren, List.mem_append, List.mem_cons, List.not_mem_nil, or_false,
      List.mem_map] at hv ⊢
    tauto
  have hid := h.hangs (depth, id) (List.mem_append_right _ List.mem_cons_self)
  refine ⟨h.nodup_step ht hnode, fun visit hv => ?_, hkeep h.root, fun visit hv => ?_,
    fun visit hv child hchild => ?_⟩
  · rcases hfrom visit hv with hold | ⟨child, hchild, rfl⟩
    · exact h.hangs visit hold
    · exact .child hid hchild
  · rcases hfrom visit hv with hold | ⟨child, hchild, rfl⟩
    · refine (h.parent visit hold).imp_right fun hparent => ?_
      obtain ⟨earlier, hearlier, hmem⟩ := hparent
      exact ⟨earlier, List.mem_append_left _ hearlier, hmem⟩
    · exact .inr ⟨(depth, id), List.mem_append_right _ (List.mem_singleton.2 rfl), hchild⟩
  · rcases List.mem_append.1 hv with hv | hv
    · exact hkeep (h.children visit hv child hchild)
    · obtain rfl := List.mem_singleton.1 hv
      refine List.mem_append_right _ (List.mem_append_left _ ?_)
      exact List.mem_map_of_mem (hchildren ▸ hchild)

theorem run (h : t.Covers before stack) (ht : t.Arena) (hw : t.Walks stack visits) :
    t.Covers (before ++ visits) [] := by
  induction hw generalizing before with
  | done => rwa [List.append_nil]
  | @visit depth id node stack visits hnode _ ih =>
      have hmore := ih (h.step ht hnode)
      rwa [List.append_assoc, List.singleton_append] at hmore

theorem nodup_visited (h : t.Covers visits []) : (visits.map (·.2)).Nodup := by
  have hnodup := h.nodup
  rwa [List.append_nil] at hnodup

theorem mem_iff_hangs (h : t.Covers visits []) :
    (depth, id) ∈ visits ↔ t.Hangs depth id := by
  have hall := h.children
  have hroot := h.root
  have hhangs := h.hangs
  rw [List.append_nil] at hall hroot hhangs
  refine ⟨hhangs (depth, id), fun hid => ?_⟩
  induction hid with
  | root => exact hroot
  | child _ hchild ih => exact hall _ ih _ hchild

end Covers

theorem Arena.length_le_size (h : t.Arena) {visits : List (Nat × Nat)}
    (hcovers : t.Covers visits []) : visits.length ≤ t.size := by
  have hsubset : visits.map (·.2) ⊆ List.range t.size := by
    intro id hid
    obtain ⟨visit, hv, rfl⟩ := List.mem_map.1 hid
    exact List.mem_range.2 (h.lt_size_of_hangs (hcovers.mem_iff_hangs.1 hv))
  have hle := (List.subperm_of_subset hcovers.nodup_visited hsubset).length_le
  rwa [List.length_map, List.length_range] at hle

/-! ## Depths and texts -/

mutual

theorem foldl_max_preorder {depth m : Nat} : (d : Derivation) →
    ((preorder depth d).map (·.1)).foldl max m = max m (depth + d.depth)
  | .leaf _ | .pending _ => rfl
  | .node _ _ ds => by
      rw [preorder, List.map_cons, List.foldl_cons, foldl_max_preorderAll ds (le_max_right m depth),
        Derivation.depth, max_assoc, max_eq_right (Nat.le_add_right depth _)]

theorem foldl_max_preorderAll {depth m : Nat} : (ds : List Derivation) → depth ≤ m →
    ((preorderAll (depth + 1) ds).map (·.1)).foldl max m = max m (depth + Derivation.depths ds)
  | [], hm => (max_eq_left hm).symm
  | d :: ds, hm => by
      rw [preorderAll, List.map_append, List.foldl_append, foldl_max_preorder d,
        foldl_max_preorderAll ds (hm.trans (le_max_left _ _)), Derivation.depths]
      omega

end

end Tree

/-- Whether a node is a leaf that is written in the text. -/
def Node.isPlainLeaf (node : Node) : Bool := node.state == .leaf && !isBracketed node.symbol

theorem Node.ownText_of_isPlainLeaf {node : Node} (h : node.isPlainLeaf = true) :
    node.ownText = node.symbol := by
  simp only [isPlainLeaf, Bool.and_eq_true, beq_iff_eq, Bool.not_eq_true'] at h
  rw [ownText, h.1, h.2]
  rfl

theorem Node.ownText_of_not_isPlainLeaf {node : Node} (h : node.isPlainLeaf = false) :
    node.ownText = "" := by
  obtain ⟨symbol, state⟩ := node
  cases state with
  | leaf =>
      have hbracketed : isBracketed symbol = true := by simpa [isPlainLeaf] using h
      rw [ownText, hbracketed]
      rfl
  | pending => rfl
  | expanded => rfl

namespace Tree

variable {t : Tree}

theorem join_ownText_eq (entries : List (Nat × Node)) :
    String.join (entries.map (·.2.ownText)) =
      String.join ((entries.filter (·.2.isPlainLeaf)).map (·.2.symbol)) := by
  induction entries with
  | nil => rfl
  | cons entry entries ih =>
      rw [List.map_cons, String.join_cons, ih]
      cases hplain : entry.2.isPlainLeaf with
      | true =>
          rw [List.filter_cons, if_pos hplain, List.map_cons, String.join_cons,
            Node.ownText_of_isPlainLeaf hplain]
      | false =>
          rw [List.filter_cons, hplain, if_neg Bool.false_ne_true,
            Node.ownText_of_not_isPlainLeaf hplain, String.empty_append]

theorem depth_eq_of_map_bare_walk {d : Derivation} (h : t.walk.map bare = preorder 0 d) :
    t.depth = d.depth := by
  have hdepths := congrArg (List.map (·.1)) h
  simp only [List.map_map, Function.comp_def, bare_fst] at hdepths
  rw [depth, hdepths, foldl_max_preorder, Nat.zero_max, Nat.zero_add]

theorem text_eq_of_map_bare_walk {d : Derivation} (h : t.walk.map bare = preorder 0 d) :
    t.text = d.text := by
  have htexts := congrArg (List.map (·.2.ownText)) h
  simp only [List.map_map, Function.comp_def, ownText_bare] at htexts
  rw [text_eq, htexts, join_ownText_preorder]

/-- A walk visits the nodes of an arena as those of the derivation that hangs on the root. -/
theorem Arena.exists_visits_eq (h : t.Arena) : ∃ d, t.Shows 0 d ∧ t.visits = t.spread 0 0 d ∧
    t.Walks [(0, 0)] t.visits ∧ t.Covers t.visits [] := by
  obtain ⟨d, hshows⟩ := h.exists_shows h.size_pos
  have hspread : t.Walks [(0, 0)] (t.spread 0 0 d ++ []) := walks_of_shows d hshows .done
  rw [List.append_nil] at hspread
  have hcovers : t.Covers (t.spread 0 0 d) [] := (Covers.start t).run h hspread
  have hvisits : t.visits = t.spread 0 0 d := hspread.visitsFrom_eq (h.length_le_size hcovers)
  rw [← hvisits] at hspread hcovers
  exact ⟨d, hshows, hvisits, hspread, hcovers⟩

theorem map_bare_walk_of_visits_eq {d : Derivation} (hshows : t.Shows 0 d)
    (hvisits : t.visits = t.spread 0 0 d) : t.walk.map bare = preorder 0 d := by
  rw [walk_eq, hvisits, seen_spread d hshows]

/-- The loops over the nodes of an arena end and compute the recursive definitions. A walk visits
each node that hangs on the root once and at its depth, in the order of the derivation that hangs
there; the text is what that derivation spells, and what the leaves spell in the order of the walk;
the depth is the most edges on a way down. -/
theorem traversals_eq_recursion (t : Tree) (h : t.Arena) :
    t.Walks [(0, 0)] t.visits ∧ t.walk.map some = t.visits.map t.seen? ∧
    (t.visits.map (·.2)).Nodup ∧ (∀ depth id, (depth, id) ∈ t.visits ↔ t.Hangs depth id) ∧
    (∃ texts, t.Collects [0] texts ∧ t.text = String.join texts) ∧
    t.text = String.join ((t.walk.filter (·.2.isPlainLeaf)).map (·.2.symbol)) ∧
    ∃ d, t.Shows 0 d ∧ t.visits = t.spread 0 0 d ∧ t.walk.map bare = preorder 0 d ∧
      t.text = d.text ∧ t.depth = d.depth := by
  obtain ⟨d, hshows, hvisits, hwalks, hcovers⟩ := h.exists_visits_eq
  have hseen := hwalks.map_seen
  have htexts := hwalks.collects
  rw [← walk_eq] at hseen htexts
  have hwalk := map_bare_walk_of_visits_eq hshows hvisits
  exact ⟨hwalks, hseen, hcovers.nodup_visited, fun _ _ => hcovers.mem_iff_hangs,
    ⟨_, htexts, text_eq t⟩, (text_eq t).trans (join_ownText_eq _), d, hshows, hvisits, hwalk,
    text_eq_of_map_bare_walk hwalk, depth_eq_of_map_bare_walk hwalk⟩

/-- A tree in the making: a node still waits for its rule, one hangs nowhere, and the ways down are
of different lengths. -/
def uneven : Tree :=
  ⟨#[⟨"<s>", .expanded 0 [2, 1, 5]⟩, ⟨"<t>", .expanded 1 [3, 4]⟩, ⟨"a", .leaf⟩, ⟨"<u>", .leaf⟩,
    ⟨"b", .leaf⟩, ⟨"<s>", .pending⟩, ⟨"c", .leaf⟩]⟩

theorem arena_uneven : uneven.Arena where
  size_pos := by decide
  child_lt := by decide
  lt_child := by
    have hall : ∀ id : Fin uneven.nodes.size, ∀ child ∈ (uneven.nodes[id]).children,
        id.val < child := by
      decide
    intro id node hnode
    obtain ⟨hid, rfl⟩ := Array.getElem?_eq_some_iff.1 hnode
    exact hall ⟨id, hid⟩
  nodup := by decide

theorem traversals_eq_recursion_uneven : uneven.Arena ∧
    uneven.Walks [(0, 0)] [(0, 0), (1, 2), (1, 1), (2, 3), (2, 4), (1, 5)] ∧
    ∃ d, uneven.Shows 0 d ∧ d.text = "ab" ∧ d.depth = 2 := by
  obtain ⟨hwalks, -, -, -, -, -, d, hshows, -, -, htext, hdepth⟩ :=
    traversals_eq_recursion uneven arena_uneven
  have hvisits : uneven.visits = [(0, 0), (1, 2), (1, 1), (2, 3), (2, 4), (1, 5)] := by decide
  rw [hvisits] at hwalks
  exact ⟨arena_uneven, hwalks, d, hshows, htext ▸ by decide +kernel, hdepth ▸ by decide +kernel⟩

end Tree

end GrammarSampler

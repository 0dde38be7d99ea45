import GrammarSampler.Proofs.Engine.Layout
import GrammarSampler.Proofs.Tree.Levels

/-!
# The shape of layouts

Whichever order lays out a derivation, the tree shows it, and no node hangs anywhere else. Depth
first, the nodes are laid out as a walk visits them, and in level order level by level.
-/

namespace GrammarSampler

def Site.place (site : Site) : Nat × Nat := (site.depth, site.id)

def sight (entry : Site × Node) : Nat × Node := (entry.1.depth, entry.2)

/-- Whether each entry of the layout is the node of its site. -/
def Tree.Holds (t : Tree) (layout : List (Site × Node)) : Prop :=
  ∀ entry ∈ layout, t.nodes[entry.1.id]? = some entry.2

namespace Tree

variable {t : Tree} {l m : List (Site × Node)}

theorem holds_cons_iff {entry : Site × Node} :
    t.Holds (entry :: l) ↔ t.nodes[entry.1.id]? = some entry.2 ∧ t.Holds l :=
  List.forall_mem_cons

theorem holds_append_iff : t.Holds (l ++ m) ↔ t.Holds l ∧ t.Holds m :=
  List.forall_mem_append

theorem holds_ofNodes (h : l.map (·.1.id) = List.range l.length) :
    (ofNodes (l.map (·.2))).Holds l := by
  intro entry hentry
  obtain ⟨n, hn⟩ := List.mem_iff_getElem?.1 hentry
  obtain ⟨hlt, -⟩ := List.getElem?_eq_some_iff.1 hn
  have hid : (l.map (·.1.id))[n]? = some n := by rw [h, List.getElem?_range hlt]
  rw [List.getElem?_map, hn, Option.map_some, Option.some.injEq] at hid
  simp [hid, hn]

theorem Holds.filterMap_seen (h : t.Holds l) :
    (l.map (·.1.place)).filterMap t.seen? = l.map sight := by
  rw [List.filterMap_map, ← List.filterMap_eq_map]
  refine List.filterMap_congr fun entry hentry => ?_
  simp [seen?, Site.place, sight, h entry hentry]

end Tree

/-! ## Depth first -/

namespace DepthFirst

variable {t : Tree}

mutual

theorem map_id_lay : (site : Site) → (d : Derivation) →
    (lay site d).map (·.1.id) = List.range' site.id d.size
  | _, .leaf _ => rfl
  | _, .pending _ => rfl
  | site, .node _ _ children => by
      rw [lay, List.map_cons, map_id_layAll site 0 (site.id + 1) children, Derivation.size,
        List.range'_succ]

theorem map_id_layAll (parent : Site) : (index id : Nat) → (ds : List Derivation) →
    (layAll parent index id ds).map (·.1.id) = List.range' id (Derivation.sizes ds)
  | _, _, [] => rfl
  | index, id, d :: ds => by
      rw [layAll, List.map_append, map_id_lay (parent.child index d.root id) d,
        map_id_layAll parent (index + 1) (id + d.size) ds, Derivation.sizes, ← List.range'_append_1]
      rfl

end

mutual

theorem shows_of_holds : (site : Site) → (d : Derivation) → t.Holds (lay site d) → t.Shows site.id d
  | _, .leaf _, h => h _ List.mem_cons_self
  | _, .pending _, h => h _ List.mem_cons_self
  | site, .node _ _ children, h => by
      rw [lay, Tree.holds_cons_iff] at h
      exact ⟨_, h.1, showsAll_of_holds site 0 (site.id + 1) children h.2⟩

theorem showsAll_of_holds (parent : Site) : (index id : Nat) → (ds : List Derivation) →
    t.Holds (layAll parent index id ds) → t.ShowsAll ((siblings parent index id ds).map (·.id)) ds
  | _, _, [], _ => trivial
  | index, id, d :: ds, h => by
      rw [layAll, Tree.holds_append_iff] at h
      exact ⟨shows_of_holds (parent.child index d.root id) d h.1,
        showsAll_of_holds parent (index + 1) (id + d.size) ds h.2⟩

end

mutual

theorem map_place_lay : (site : Site) → (d : Derivation) → t.Holds (lay site d) →
    (lay site d).map (·.1.place) = t.spread site.depth site.id d
  | _, .leaf _, _ => rfl
  | _, .pending _, _ => rfl
  | site, .node _ _ children, h => by
      rw [lay, Tree.holds_cons_iff] at h
      have hids : t.childrenOf site.id = (siblings site 0 (site.id + 1) children).map (·.id) := by
        simp [Tree.childrenOf, h.1, Node.children]
      rw [lay, List.map_cons, map_place_layAll site 0 (site.id + 1) children h.2, Tree.spread, hids]
      rfl

theorem map_place_layAll (parent : Site) : (index id : Nat) → (ds : List Derivation) →
    t.Holds (layAll parent index id ds) →
      (layAll parent index id ds).map (·.1.place) =
        t.spreadAll (parent.depth + 1) ((siblings parent index id ds).map (·.id)) ds
  | _, _, [], _ => rfl
  | index, id, d :: ds, h => by
      rw [layAll, Tree.holds_append_iff] at h
      rw [layAll, List.map_append, map_place_lay (parent.child index d.root id) d h.1,
        map_place_layAll parent (index + 1) (id + d.size) ds h.2]
      rfl

end

end DepthFirst

/-! ## Level order -/

namespace LevelOrder

variable {t : Tree} {queue : List (Site × Derivation)}

theorem map_id_adjacent (parent : Site) (index id : Nat) (ds : List Derivation) :
    (adjacent parent index id ds).map (·.1.id) = List.range' id ds.length := by
  induction ds generalizing index id with
  | nil => rfl
  | cons d ds ih => simp [adjacent, ih, Site.child, List.range'_succ]

theorem map_id_lay {first id : Nat} (hids : queue.map (·.1.id) = List.range' first queue.length)
    (hid : id = first + queue.length) :
    (lay id queue).map (·.1.id) = List.range' first (lay id queue).length := by
  fun_induction lay id queue generalizing first with
  | case1 => rfl
  | case2 id site d queue ih =>
      rw [List.map_cons, List.length_cons, List.range'_succ, List.cons.injEq] at hids
      have hmore := @ih (first + 1) (by
        rw [List.map_append, hids.2, map_id_adjacent, List.length_append, length_adjacent, hid,
          ← List.range'_append_1]
        congr 2
        rw [List.length_cons]
        omega) (by rw [List.length_append, length_adjacent, hid, List.length_cons]; omega)
      rw [List.map_cons, hmore, List.length_cons, List.range'_succ, hids.1]

theorem showsAll_of_adjacent {parent : Site} {index id : Nat} {ds : List Derivation}
    (h : ∀ e ∈ adjacent parent index id ds, t.Shows e.1.id e.2) :
    t.ShowsAll (List.range' id ds.length) ds := by
  induction ds generalizing index id with
  | nil => trivial
  | cons d ds ih =>
      rw [adjacent, List.forall_mem_cons] at h
      exact ⟨h.1, ih h.2⟩

theorem shows_of_holds {id : Nat} (h : t.Holds (lay id queue)) :
    ∀ e ∈ queue, t.Shows e.1.id e.2 := by
  fun_induction lay id queue with
  | case1 => simp
  | case2 id site d queue ih =>
      rw [Tree.holds_cons_iff] at h
      obtain ⟨hqueue, hchildren⟩ := List.forall_mem_append.1 (ih h.2)
      refine List.forall_mem_cons.2 ⟨?_, hqueue⟩
      cases d with
      | leaf => exact h.1
      | pending => exact h.1
      | node symbol rule ds => exact ⟨_, h.1, showsAll_of_adjacent hchildren⟩

/-- The nodes at which the parts of the derivations in a queue hang. -/
def hanging (t : Tree) (queue : List (Site × Derivation)) : List (Nat × Nat) :=
  queue.flatMap fun e => t.spread e.1.depth e.1.id e.2

theorem hanging_append (queue more : List (Site × Derivation)) :
    hanging t (queue ++ more) = hanging t queue ++ hanging t more :=
  List.flatMap_append

theorem hanging_cons (site : Site) (d : Derivation) (queue : List (Site × Derivation)) :
    hanging t ((site, d) :: queue) = t.spread site.depth site.id d ++ hanging t queue := rfl

theorem hanging_adjacent (parent : Site) (index id : Nat) (ds : List Derivation) :
    hanging t (adjacent parent index id ds) =
      t.spreadAll (parent.depth + 1) (List.range' id ds.length) ds := by
  induction ds generalizing index id with
  | nil => rfl
  | cons d ds ih =>
      rw [adjacent, hanging_cons, ih]
      rfl

theorem spread_eq_cons {id : Nat} {site : Site} {d : Derivation}
    (h : t.nodes[site.id]? = some (nodeAt id d)) :
    t.spread site.depth site.id d =
      site.place :: hanging t (adjacent site 0 id d.children) := by
  rw [hanging_adjacent]
  cases d with
  | leaf => rfl
  | pending => rfl
  | node symbol rule ds =>
      have hids : t.childrenOf site.id = List.range' id ds.length := by
        simp [Tree.childrenOf, h, nodeAt, Node.children]
      rw [Tree.spread, hids]
      rfl

theorem depth_of_mem_hanging {n : Nat} (h : ∀ e ∈ queue, n ≤ e.1.depth) {visit : Nat × Nat}
    (hv : visit ∈ hanging t queue) : n ≤ visit.1 := by
  obtain ⟨e, he, hv⟩ := List.mem_flatMap.1 hv
  exact (h e he).trans (Tree.depth_of_mem_spread e.2 hv).1

theorem depth_of_mem_adjacent {parent : Site} {index id : Nat} {ds : List Derivation} :
    ∀ e ∈ adjacent parent index id ds, e.1.depth = parent.depth + 1 := by
  induction ds generalizing index id with
  | nil => simp [adjacent]
  | cons d ds ih => exact List.forall_mem_cons.2 ⟨rfl, ih⟩

theorem leveled_cons {id : Nat} {site : Site} {d : Derivation}
    {rest next : List (Site × Derivation)} (hnode : t.nodes[site.id]? = some (nodeAt id d))
    (hrest : ∀ e ∈ rest, e.1.depth = site.depth)
    (hnext : ∀ e ∈ next, e.1.depth = site.depth + 1) {l : List (Nat × Nat)}
    (h : Tree.Leveled l
      (hanging t (next ++ adjacent site 0 id d.children) ++ hanging t rest)) :
    Tree.Leveled (site.place :: l) (hanging t next ++ hanging t ((site, d) :: rest)) := by
  rw [hanging_append, List.append_assoc] at h
  rw [hanging_cons, spread_eq_cons hnode, List.cons_append]
  have hdeeper : ∀ visit ∈ hanging t next, site.depth + 1 ≤ visit.1 :=
    fun visit => depth_of_mem_hanging fun e he => (hnext e he).ge
  refine Tree.Leveled.insert (h.cons fun visit hv => ?_) hdeeper
  rcases List.mem_append.1 hv with hv | hv
  · exact (Nat.le_succ _).trans (hdeeper visit hv)
  · rcases List.mem_append.1 hv with hv | hv
    · refine (Nat.le_succ _).trans (depth_of_mem_hanging (fun e he => ?_) hv)
      exact (depth_of_mem_adjacent e he).ge
    · exact depth_of_mem_hanging (fun e he => (hrest e he).ge) hv

/-- A queue holds the rest of a level, and then what has been found of the next. -/
theorem leveled_lay {id depth : Nat} (h : t.Holds (lay id queue))
    {row next : List (Site × Derivation)} (hqueue : queue = row ++ next)
    (hrow : ∀ e ∈ row, e.1.depth = depth) (hnext : ∀ e ∈ next, e.1.depth = depth + 1) :
    Tree.Leveled ((lay id queue).map (·.1.place)) (hanging t next ++ hanging t row) := by
  fun_induction lay id queue generalizing depth row next with
  | case1 =>
      obtain ⟨rfl, rfl⟩ := List.append_eq_nil_iff.1 hqueue.symm
      exact ⟨List.Pairwise.nil, fun n => rfl⟩
  | case2 id site d queue ih =>
      rw [Tree.holds_cons_iff] at h
      cases row with
      | nil =>
          -- the level has been used up, and the next one begins
          obtain rfl : (site, d) :: queue = next := hqueue
          obtain ⟨-, hqueue⟩ := List.forall_mem_cons.1 hnext
          have hsite : site.depth = depth + 1 := hnext _ List.mem_cons_self
          rw [← hsite] at hqueue
          have hmore := ih h.2 rfl hqueue depth_of_mem_adjacent
          have hleveled := @leveled_cons t id site d queue [] h.1 hqueue (by simp) _ hmore
          have hnil : hanging t [] = [] := rfl
          rw [hnil, List.nil_append] at hleveled
          rw [hnil, List.append_nil]
          exact hleveled
      | cons e row =>
          obtain ⟨rfl, rfl⟩ := List.cons.inj hqueue
          obtain ⟨hsite, hrow⟩ := List.forall_mem_cons.1 hrow
          obtain rfl : site.depth = depth := hsite
          refine leveled_cons h.1 hrow hnext (ih h.2 (List.append_assoc _ _ _) hrow ?_)
          exact List.forall_mem_append.2 ⟨hnext, depth_of_mem_adjacent⟩

end LevelOrder

/-! ## Both orders -/

namespace Strategy

variable {d : Derivation}

theorem map_id_lay (strategy : Strategy) (d : Derivation) :
    (strategy.lay d).map (·.1.id) = List.range (strategy.lay d).length := by
  rw [List.range_eq_range']
  cases strategy with
  | depthFirst =>
      rw [lay, DepthFirst.map_id_lay, DepthFirst.length_lay]
      rfl
  | levelOrder => exact LevelOrder.map_id_lay rfl rfl

theorem holds_treeOf (strategy : Strategy) (d : Derivation) :
    (strategy.treeOf d).Holds (strategy.lay d) :=
  Tree.holds_ofNodes (strategy.map_id_lay d)

theorem shows_treeOf (strategy : Strategy) (d : Derivation) : (strategy.treeOf d).Shows 0 d := by
  have hholds := strategy.holds_treeOf d
  cases strategy with
  | depthFirst => exact DepthFirst.shows_of_holds _ _ hholds
  | levelOrder => exact LevelOrder.shows_of_holds hholds _ List.mem_cons_self

theorem visits_treeOf (strategy : Strategy) (d : Derivation) :
    (strategy.treeOf d).visits = (strategy.treeOf d).spread 0 0 d := by
  rw [Tree.visits, Tree.visitsFrom_root (strategy.shows_treeOf d) (strategy.size_treeOf d).ge]

theorem visits_depthFirst (d : Derivation) :
    (depthFirst.treeOf d).visits = (depthFirst.lay d).map (·.1.place) := by
  rw [visits_treeOf]
  exact (DepthFirst.map_place_lay _ _ (depthFirst.holds_treeOf d)).symm

theorem leveled_levelOrder (d : Derivation) :
    Tree.Leveled ((levelOrder.lay d).map (·.1.place)) (levelOrder.treeOf d).visits := by
  have hleveled := LevelOrder.leveled_lay (levelOrder.holds_treeOf d) (List.append_nil _).symm
    (fun e he => by rw [List.mem_singleton.1 he]) (by simp)
  rw [LevelOrder.hanging, LevelOrder.hanging, List.flatMap_nil, List.nil_append,
    List.flatMap_singleton] at hleveled
  rw [visits_treeOf]
  exact hleveled

/-- A walk visits every node once. -/
theorem visits_perm (strategy : Strategy) (d : Derivation) :
    (strategy.treeOf d).visits.Perm ((strategy.lay d).map (·.1.place)) := by
  cases strategy with
  | depthFirst => exact .of_eq (visits_depthFirst d)
  | levelOrder => exact (leveled_levelOrder d).perm.symm

theorem visits_perm_range (strategy : Strategy) (d : Derivation) :
    ((strategy.treeOf d).visits.map (·.2)).Perm (List.range d.size) := by
  have hids := (strategy.visits_perm d).map (·.2)
  rw [List.map_map] at hids
  rw [← strategy.length_lay d, ← strategy.map_id_lay d]
  exact hids

theorem walk_perm (strategy : Strategy) (d : Derivation) :
    ((strategy.treeOf d).walk.map (·.2)).Perm (strategy.treeOf d).nodes.toList := by
  have hwalk := (strategy.visits_perm d).filterMap (strategy.treeOf d).seen?
  rw [← Tree.walk_eq, (strategy.holds_treeOf d).filterMap_seen] at hwalk
  have hnodes := hwalk.map (·.2)
  rw [List.map_map] at hnodes
  rw [treeOf, Tree.nodes_ofNodes]
  exact hnodes

/-- The order in which the rules of a tree are chosen. -/
def order (strategy : Strategy) (t : Tree) : List (Nat × Node) :=
  match strategy with
  | .levelOrder => t.levelOrder
  | .depthFirst => t.walk

theorem order_treeOf (strategy : Strategy) (d : Derivation) :
    strategy.order (strategy.treeOf d) = (strategy.lay d).map sight := by
  rw [← (strategy.holds_treeOf d).filterMap_seen]
  cases strategy with
  | depthFirst => rw [order, Tree.walk_eq, visits_depthFirst]
  | levelOrder =>
      refine Tree.levelOrder_eq (leveled_levelOrder d) fun visit hv => ?_
      rw [visits_treeOf] at hv
      have hdepth := (Tree.depth_of_mem_spread d hv).2
      rw [size_treeOf]
      omega

end Strategy

end GrammarSampler

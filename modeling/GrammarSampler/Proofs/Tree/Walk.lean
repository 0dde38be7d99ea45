import GrammarSampler.Derivation
import GrammarSampler.Tree
import Mathlib

/-!
# Walks and derivations

A tree shows a derivation if its nodes hang together like the parts of the derivation. A walk
through such a tree visits the parts in their order, and what it sees does not depend on their
names.
-/

namespace GrammarSampler

namespace Tree

/-! ## Nodes -/

def ofNodes (nodes : List Node) : Tree := ⟨nodes.toArray⟩

@[simp]
theorem nodes_ofNodes (nodes : List Node) : (ofNodes nodes).nodes = nodes.toArray := rfl

@[simp]
theorem size_ofNodes (nodes : List Node) : (ofNodes nodes).size = nodes.length := by
  simp [size]

theorem single_eq_ofNodes (symbol : String) : single symbol = ofNodes [⟨symbol, .pending⟩] := rfl

theorem push_ofNodes (nodes : List Node) (symbol : String) (state : NodeState) :
    (ofNodes nodes).push symbol state = ofNodes (nodes ++ [⟨symbol, state⟩]) := by
  simp [push, ofNodes]

theorem resolve_ofNodes (before after : List Node) (node : Node) (state : NodeState) :
    (ofNodes (before ++ node :: after)).resolve before.length state =
      ofNodes (before ++ { node with state } :: after) := by
  simp only [resolve, ofNodes, List.modify_toArray, Tree.mk.injEq]
  rw [List.modify_eq_take_cons_drop (by simp)]
  simp

/-! ## Visits -/

/-- The names of the nodes that a walk visits below `stack`, with their depths. -/
def visitsFrom (t : Tree) : Nat → List (Nat × Nat) → List (Nat × Nat)
  | 0, _ => []
  | _, [] => []
  | fuel + 1, (depth, id) :: stack =>
    match t.nodes[id]? with
    | none => visitsFrom t fuel stack
    | some node => (depth, id) :: visitsFrom t fuel (node.children.map (depth + 1, ·) ++ stack)

def visits (t : Tree) : List (Nat × Nat) := t.visitsFrom t.size [(0, 0)]

def seen? (t : Tree) (visit : Nat × Nat) : Option (Nat × Node) :=
  t.nodes[visit.2]?.map (visit.1, ·)

theorem walkFrom_eq (t : Tree) (fuel : Nat) (stack : List (Nat × Nat)) :
    t.walkFrom fuel stack = (t.visitsFrom fuel stack).filterMap t.seen? := by
  induction fuel generalizing stack with
  | zero => simp [walkFrom, visitsFrom]
  | succ fuel ih =>
      cases stack with
      | nil => simp [walkFrom, visitsFrom]
      | cons visit stack =>
          obtain ⟨depth, id⟩ := visit
          cases hn : t.nodes[id]? with
          | none => simp [walkFrom, visitsFrom, hn, ih]
          | some node =>
              have hseen : t.seen? (depth, id) = some (depth, node) := by simp [seen?, hn]
              simp [walkFrom, visitsFrom, hn, hseen, ih]

theorem walk_eq (t : Tree) : t.walk = t.visits.filterMap t.seen? := walkFrom_eq t _ _

theorem textsFrom_eq (t : Tree) (fuel : Nat) (stack : List (Nat × Nat)) :
    t.textsFrom fuel (stack.map (·.2)) = (t.walkFrom fuel stack).map (·.2.ownText) := by
  induction fuel generalizing stack with
  | zero => simp [walkFrom, textsFrom]
  | succ fuel ih =>
      cases stack with
      | nil => simp [walkFrom, textsFrom]
      | cons visit stack =>
          obtain ⟨depth, id⟩ := visit
          cases hn : t.nodes[id]? with
          | none => simp [walkFrom, textsFrom, hn, ih]
          | some node =>
              have hmore := ih (node.children.map (depth + 1, ·) ++ stack)
              simp only [List.map_append, List.map_map, Function.comp_def, List.map_id'] at hmore
              simp [walkFrom, textsFrom, hn, hmore]

theorem text_eq (t : Tree) : t.text = String.join (t.walk.map (·.2.ownText)) := by
  rw [text, walk, ← textsFrom_eq]
  rfl

/-! ## Shown derivations -/

mutual

/-- Whether the derivation is what hangs on node `id`. -/
def Shows (t : Tree) : Nat → Derivation → Prop
  | id, .leaf symbol => t.nodes[id]? = some ⟨symbol, .leaf⟩
  | id, .pending symbol => t.nodes[id]? = some ⟨symbol, .pending⟩
  | id, .node symbol rule children =>
    ∃ ids, t.nodes[id]? = some ⟨symbol, .expanded rule ids⟩ ∧ ShowsAll t ids children

def ShowsAll (t : Tree) : List Nat → List Derivation → Prop
  | [], [] => True
  | id :: ids, d :: ds => Shows t id d ∧ ShowsAll t ids ds
  | [], _ :: _ => False
  | _ :: _, [] => False

end

def childrenOf (t : Tree) (id : Nat) : List Nat := (t.nodes[id]?.map Node.children).getD []

mutual

/-- The nodes at which the parts of a derivation hang that begins with node `id` at `depth`. -/
def spread (t : Tree) (depth id : Nat) : Derivation → List (Nat × Nat)
  | .leaf _ | .pending _ => [(depth, id)]
  | .node _ _ children => (depth, id) :: spreadAll t (depth + 1) (t.childrenOf id) children

def spreadAll (t : Tree) (depth : Nat) : List Nat → List Derivation → List (Nat × Nat)
  | id :: ids, d :: ds => spread t depth id d ++ spreadAll t depth ids ds
  | [], _ => []
  | _, [] => []

end

theorem Shows.lookup {t : Tree} {id : Nat} {symbol : String} {rule : Nat}
    {ds : List Derivation} (h : t.Shows id (.node symbol rule ds)) :
    t.nodes[id]? = some ⟨symbol, .expanded rule (t.childrenOf id)⟩ ∧
      t.ShowsAll (t.childrenOf id) ds := by
  obtain ⟨ids, hn, hs⟩ := h
  have hids : t.childrenOf id = ids := by simp [childrenOf, hn, Node.children]
  rw [hids]
  exact ⟨hn, hs⟩

theorem Shows.exists_node {t : Tree} {id : Nat} {d : Derivation} {symbol : String} {rule : Nat}
    {ids : List Nat} (h : t.Shows id d) (hn : t.nodes[id]? = some ⟨symbol, .expanded rule ids⟩) :
    ∃ ds, d = .node symbol rule ds := by
  cases d with
  | leaf => cases Option.some.inj (Eq.trans (Eq.symm h) hn)
  | pending => cases Option.some.inj (Eq.trans (Eq.symm h) hn)
  | node _ _ ds =>
      cases Option.some.inj (h.lookup.1.symm.trans hn)
      exact ⟨ds, rfl⟩

mutual

theorem Shows.unique {t : Tree} {id : Nat} : {d e : Derivation} →
    t.Shows id d → t.Shows id e → d = e
  | .leaf _, .leaf _, hd, he | .pending _, .pending _, hd, he => by
      have hsame := Option.some.inj (Eq.trans (Eq.symm hd) he)
      cases hsame
      rfl
  | .node _ _ ds, .node _ _ es, hd, he => by
      obtain ⟨hn, hds⟩ := hd.lookup
      obtain ⟨hm, hes⟩ := he.lookup
      have hsame := Option.some.inj (hn.symm.trans hm)
      cases hsame
      rw [hds.unique hes]
  | .leaf _, .pending _, hd, he | .pending _, .leaf _, hd, he =>
      nomatch Option.some.inj (Eq.trans (Eq.symm hd) he)
  | .leaf _, .node _ _ _, hd, he | .pending _, .node _ _ _, hd, he =>
      nomatch Option.some.inj (Eq.trans (Eq.symm hd) he.lookup.1)
  | .node _ _ _, .leaf _, hd, he | .node _ _ _, .pending _, hd, he =>
      nomatch Option.some.inj (hd.lookup.1.symm.trans he)

theorem ShowsAll.unique {t : Tree} : {ids : List Nat} → {ds es : List Derivation} →
    t.ShowsAll ids ds → t.ShowsAll ids es → ds = es
  | [], [], [], _, _ => rfl
  | _ :: _, _ :: _, _ :: _, hd, he => by rw [hd.1.unique he.1, hd.2.unique he.2]
  | [], _ :: _, _, hd, _ | _ :: _, [], _, hd, _ => hd.elim
  | [], _, _ :: _, _, he | _ :: _, _, [], _, he => he.elim

end

mutual

theorem visitsFrom_of_shows {t : Tree} {depth id : Nat} {stack : List (Nat × Nat)} (fuel : Nat) :
    (d : Derivation) → t.Shows id d →
      t.visitsFrom (d.size + fuel) ((depth, id) :: stack) =
        t.spread depth id d ++ t.visitsFrom fuel stack
  | .leaf symbol, h => by
      have hn : t.nodes[id]? = some ⟨symbol, .leaf⟩ := h
      simp [Derivation.size, Nat.add_comm 1, visitsFrom, hn, spread, Node.children]
  | .pending symbol, h => by
      have hn : t.nodes[id]? = some ⟨symbol, .pending⟩ := h
      simp [Derivation.size, Nat.add_comm 1, visitsFrom, hn, spread, Node.children]
  | .node symbol rule children, h => by
      obtain ⟨hn, hs⟩ := h.lookup
      rw [Derivation.size, Nat.add_right_comm, visitsFrom, hn, spread, List.cons_append,
        ← visitsFrom_of_showsAll fuel children hs]
      rfl

theorem visitsFrom_of_showsAll {t : Tree} {depth : Nat} {stack : List (Nat × Nat)} (fuel : Nat) :
    {ids : List Nat} → (ds : List Derivation) → t.ShowsAll ids ds →
      t.visitsFrom (Derivation.sizes ds + fuel) (ids.map (depth, ·) ++ stack) =
        t.spreadAll depth ids ds ++ t.visitsFrom fuel stack
  | [], [], _ => by simp [Derivation.sizes, spreadAll]
  | id :: ids, d :: ds, h => by
      rw [Derivation.sizes, Nat.add_assoc, List.map_cons, List.cons_append,
        visitsFrom_of_shows (Derivation.sizes ds + fuel) d h.1, visitsFrom_of_showsAll fuel ds h.2,
        spreadAll, List.append_assoc]
  | [], _ :: _, h => h.elim
  | _ :: _, [], h => h.elim

end

mutual

theorem depth_of_mem_spread {t : Tree} {depth id : Nat} {visit : Nat × Nat} :
    (d : Derivation) → visit ∈ t.spread depth id d →
      depth ≤ visit.1 ∧ visit.1 < depth + d.size
  | .leaf _, h | .pending _, h => by
      obtain rfl := List.mem_singleton.1 h
      exact ⟨Nat.le_refl _, Nat.lt_succ_self _⟩
  | .node _ _ children, h => by
      rw [Derivation.size]
      rcases List.mem_cons.1 h with rfl | h
      · exact ⟨Nat.le_refl _, by omega⟩
      · have hmore := depth_of_mem_spreadAll children h
        omega

theorem depth_of_mem_spreadAll {t : Tree} {depth : Nat} {visit : Nat × Nat} :
    {ids : List Nat} → (ds : List Derivation) → visit ∈ t.spreadAll depth ids ds →
      depth ≤ visit.1 ∧ visit.1 < depth + Derivation.sizes ds
  | [], _, h => by simp [spreadAll] at h
  | _ :: _, [], h => by simp [spreadAll] at h
  | _ :: _, d :: ds, h => by
      rw [Derivation.sizes]
      rcases List.mem_append.1 h with h | h
      · have hfirst := depth_of_mem_spread d h
        omega
      · have hmore := depth_of_mem_spreadAll ds h
        omega

end

/-! ## Walks through shown derivations -/

theorem visitsFrom_root {t : Tree} {d : Derivation} (h : t.Shows 0 d) {fuel : Nat}
    (hfuel : d.size ≤ fuel) : t.visitsFrom fuel [(0, 0)] = t.spread 0 0 d := by
  have hvisits := @visitsFrom_of_shows t 0 0 [] (fuel - d.size) d h
  have hnil (n : Nat) : t.visitsFrom n [] = [] := by cases n <;> rfl
  rwa [Nat.add_sub_cancel' hfuel, hnil, List.append_nil] at hvisits

/-- What a node is without the names of its children. -/
def bare (entry : Nat × Node) : Nat × Node :=
  match entry.2.state with
  | .expanded rule _ => (entry.1, ⟨entry.2.symbol, .expanded rule []⟩)
  | .pending | .leaf => entry

theorem bare_fst (entry : Nat × Node) : (bare entry).1 = entry.1 := by
  unfold bare
  split <;> rfl

theorem ownText_bare (entry : Nat × Node) : (bare entry).2.ownText = entry.2.ownText := by
  unfold bare
  split <;> simp_all [Node.ownText]

mutual

/-- What a walk sees of a derivation at `depth`. -/
def preorder (depth : Nat) : Derivation → List (Nat × Node)
  | .leaf symbol => [(depth, ⟨symbol, .leaf⟩)]
  | .pending symbol => [(depth, ⟨symbol, .pending⟩)]
  | .node symbol rule children =>
    (depth, ⟨symbol, .expanded rule []⟩) :: preorderAll (depth + 1) children

def preorderAll (depth : Nat) : List Derivation → List (Nat × Node)
  | [] => []
  | d :: ds => preorder depth d ++ preorderAll depth ds

end

mutual

theorem seen_spread {t : Tree} {depth id : Nat} :
    (d : Derivation) → t.Shows id d →
      ((t.spread depth id d).filterMap t.seen?).map bare = preorder depth d
  | .leaf symbol, h => by
      have hn : t.nodes[id]? = some ⟨symbol, .leaf⟩ := h
      simp [spread, seen?, hn, preorder, bare]
  | .pending symbol, h => by
      have hn : t.nodes[id]? = some ⟨symbol, .pending⟩ := h
      simp [spread, seen?, hn, preorder, bare]
  | .node symbol rule children, h => by
      obtain ⟨hn, hs⟩ := h.lookup
      have hseen : t.seen? (depth, id) =
          some (depth, ⟨symbol, .expanded rule (t.childrenOf id)⟩) := by
        simp [seen?, hn]
      rw [spread, List.filterMap_cons_some hseen, List.map_cons, seen_spreadAll children hs]
      rfl

theorem seen_spreadAll {t : Tree} {depth : Nat} :
    {ids : List Nat} → (ds : List Derivation) → t.ShowsAll ids ds →
      ((t.spreadAll depth ids ds).filterMap t.seen?).map bare = preorderAll depth ds
  | [], [], _ => rfl
  | _ :: _, d :: ds, h => by
      rw [spreadAll, List.filterMap_append, List.map_append, seen_spread d h.1,
        seen_spreadAll ds h.2, preorderAll]
  | [], _ :: _, h => h.elim
  | _ :: _, [], h => h.elim

end

theorem map_bare_walk {t : Tree} {d : Derivation} (h : t.Shows 0 d) (hsize : t.size = d.size) :
    t.walk.map bare = preorder 0 d := by
  rw [walk_eq, visits, visitsFrom_root h (Nat.le_of_eq hsize.symm), seen_spread d h]

mutual

theorem join_ownText_preorder {depth : Nat} : (d : Derivation) →
    String.join ((preorder depth d).map (·.2.ownText)) = d.text
  | .leaf _ | .pending _ => by
      rw [preorder, List.map_singleton, String.join_cons, String.join_nil, String.append_empty]
      rfl
  | .node _ _ children => by
      rw [preorder, List.map_cons, String.join_cons, join_ownText_preorderAll children,
        Derivation.text]
      exact String.empty_append

theorem join_ownText_preorderAll {depth : Nat} : (ds : List Derivation) →
    String.join ((preorderAll depth ds).map (·.2.ownText)) = Derivation.texts ds
  | [] => rfl
  | d :: ds => by
      rw [preorderAll, List.map_append, String.join_append, join_ownText_preorder d,
        join_ownText_preorderAll ds, Derivation.texts]

end

/-- A tree spells what the derivation that it shows spells. -/
theorem text_of_shows {t : Tree} {d : Derivation} (h : t.Shows 0 d) (hsize : t.size = d.size) :
    t.text = d.text := by
  have htexts := congrArg (List.map (·.2.ownText)) (map_bare_walk h hsize)
  simp only [List.map_map, Function.comp_def, ownText_bare] at htexts
  rw [text_eq, htexts, join_ownText_preorder]

theorem text_eq_and_depth_eq {t u : Tree} {d : Derivation} (ht : t.Shows 0 d) (hu : u.Shows 0 d)
    (htsize : t.size = d.size) (husize : u.size = d.size) :
    t.text = u.text ∧ t.depth = u.depth := by
  refine ⟨(text_of_shows ht htsize).trans (text_of_shows hu husize).symm, ?_⟩
  have hwalk := (map_bare_walk ht htsize).trans (map_bare_walk hu husize).symm
  have hdepths := congrArg (List.map (·.1)) hwalk
  simp only [List.map_map, Function.comp_def, bare_fst] at hdepths
  rw [depth, depth, hdepths]

end Tree

end GrammarSampler

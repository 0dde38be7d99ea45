import GrammarSampler.Proofs.Engine.Own
import GrammarSampler.Proofs.Engine.Shape

/-!
# Derived trees are valid

Whatever is chosen, a derivation that succeeds gives a tree in which every node hangs in one place
and follows the grammar and the policy.
-/

namespace GrammarSampler

/-! ## Valid trees -/

namespace Tree

def symbol? (t : Tree) (id : Nat) : Option String := t.nodes[id]?.map Node.symbol

/-- Whether a tree is a finished derivation of `start`. -/
structure Valid (g : Grammar) (cheap : String → List Nat) (maxDepth : Nat) (start : String)
    (t : Tree) : Prop where
  isComplete : t.isComplete = true
  root : t.symbol? 0 = some start
  /-- A walk comes to its end by itself. -/
  walk_ends : ∀ fuel, t.size ≤ fuel → t.walkFrom fuel [(0, 0)] = t.walk
  length_walk : t.walk.length = t.size
  walk_visits : t.walk.map some = t.visits.map t.seen?
  /-- Every node is visited once. -/
  visits_perm : (t.visits.map (·.2)).Perm (List.range t.size)
  child_lt : ∀ node ∈ t.nodes, ∀ id ∈ node.children, id < t.size
  leaf_iff : ∀ node ∈ t.nodes, node.state = .leaf ↔ g.defines node.symbol = false
  expanded_iff : ∀ node ∈ t.nodes,
    (∃ index ids, node.state = .expanded index ids) ↔ g.defines node.symbol = true
  follows : ∀ node ∈ t.nodes, ∀ index ids, node.state = .expanded index ids →
    ∃ rule, (g.rulesOf node.symbol)[index]? = some rule ∧
      ids.map t.symbol? = rule.tokens.map some
  cheap : ∀ depth node, (depth, node) ∈ t.walk → maxDepth < depth →
    ∀ index ids, node.state = .expanded index ids → index ∈ cheap node.symbol

variable {t : Tree}

theorem Shows.symbol?_eq {id : Nat} {d : Derivation} (h : t.Shows id d) :
    t.symbol? id = some d.root := by
  cases d with
  | leaf => rw [symbol?, show t.nodes[id]? = _ from h]; rfl
  | pending => rw [symbol?, show t.nodes[id]? = _ from h]; rfl
  | node =>
      obtain ⟨ids, hn, -⟩ := h
      rw [symbol?, hn]
      rfl

theorem ShowsAll.map_symbol?_eq {ids : List Nat} {ds : List Derivation} (h : t.ShowsAll ids ds) :
    ids.map t.symbol? = (ds.map Derivation.root).map some := by
  induction ds generalizing ids with
  | nil =>
      cases ids with
      | nil => rfl
      | cons => exact h.elim
  | cons d ds ih =>
      cases ids with
      | nil => exact h.elim
      | cons id ids =>
          obtain ⟨hd, hds⟩ := h
          rw [List.map_cons, List.map_cons, List.map_cons, hd.symbol?_eq, ih hds]

end Tree

/-! ## Nodes -/

/-- Whether a node at `depth` is what the policy leaves there. -/
inductive Setting.Settles (s : Setting) (t : Tree) (depth : Nat) : Node → Prop
  | leaf {symbol : String} (hdefines : s.grammar.defines symbol = false) :
      Settles s t depth ⟨symbol, .leaf⟩
  | expanded {symbol : String} {options : Options} {rule : Nat} {ids : List Nat}
      (hoptions : s.options symbol depth = .ok options) (hrule : options.Allows rule)
      (hids : ids.map t.symbol? = (s.tokens symbol rule).map some) :
      Settles s t depth ⟨symbol, .expanded rule ids⟩

variable {s : Setting} {t : Tree}

mutual

theorem settles_of_mem_spread {depth id : Nat} {visit : Nat × Nat} :
    (d : Derivation) → s.Admits depth d → t.Shows id d → visit ∈ t.spread depth id d →
      ∃ node, t.seen? visit = some (visit.1, node) ∧ s.Settles t visit.1 node
  | .leaf symbol, ha, hs, hv => by
      obtain rfl := List.mem_singleton.1 hv
      cases ha with
      | leaf hl => exact ⟨_, by rw [Tree.seen?, show t.nodes[id]? = _ from hs]; rfl, .leaf hl⟩
  | .pending _, ha, _, _ => nomatch ha
  | .node symbol rule ds, ha, hs, hv => by
      obtain ⟨hn, hall⟩ := hs.lookup
      cases ha with
      | node ho hrule hroots hchildren =>
          rcases List.mem_cons.1 hv with rfl | hv
          · refine ⟨_, by rw [Tree.seen?, hn]; rfl, .expanded ho hrule ?_⟩
            rw [hall.map_symbol?_eq, hroots]
          · exact settles_of_mem_spreadAll ds hchildren hall hv

theorem settles_of_mem_spreadAll {depth : Nat} {visit : Nat × Nat} :
    {ids : List Nat} → (ds : List Derivation) → (∀ d ∈ ds, s.Admits depth d) →
      t.ShowsAll ids ds → visit ∈ t.spreadAll depth ids ds →
        ∃ node, t.seen? visit = some (visit.1, node) ∧ s.Settles t visit.1 node
  | [], _, _, _, hv => by simp [Tree.spreadAll] at hv
  | _ :: _, [], _, hs, _ => hs.elim
  | _ :: _, d :: ds, ha, hs, hv => by
      obtain ⟨hd, hds⟩ := List.forall_mem_cons.1 ha
      rcases List.mem_append.1 hv with hv | hv
      · exact settles_of_mem_spread d hd hs.1 hv
      · exact settles_of_mem_spreadAll ds hds hs.2 hv

end

namespace Strategy

variable {strategy : Strategy} {d : Derivation}

theorem settles_of_visit (h : s.Admits 0 d) {visit : Nat × Nat}
    (hv : visit ∈ (strategy.treeOf d).visits) :
    ∃ node, (strategy.treeOf d).seen? visit = some (visit.1, node) ∧
      s.Settles (strategy.treeOf d) visit.1 node := by
  rw [visits_treeOf] at hv
  exact settles_of_mem_spread d h (strategy.shows_treeOf d) hv

theorem map_some_walk (h : s.Admits 0 d) :
    (strategy.treeOf d).walk.map some =
      (strategy.treeOf d).visits.map (strategy.treeOf d).seen? := by
  have hseen : ∀ visit ∈ (strategy.treeOf d).visits,
      ∃ entry, (strategy.treeOf d).seen? visit = some entry := by
    intro visit hv
    obtain ⟨node, hnode, -⟩ := settles_of_visit h hv
    exact ⟨_, hnode⟩
  rw [Tree.walk_eq]
  generalize (strategy.treeOf d).visits = visits at hseen
  induction visits with
  | nil => rfl
  | cons visit visits ih =>
      obtain ⟨⟨entry, hentry⟩, hmore⟩ := List.forall_mem_cons.1 hseen
      rw [List.filterMap_cons_some hentry, List.map_cons, List.map_cons, ih hmore, hentry]

theorem settles_of_mem_walk (h : s.Admits 0 d) {depth : Nat} {node : Node}
    (hw : (depth, node) ∈ (strategy.treeOf d).walk) : s.Settles (strategy.treeOf d) depth node := by
  rw [Tree.walk_eq, List.mem_filterMap] at hw
  obtain ⟨visit, hv, hseen⟩ := hw
  obtain ⟨other, hother, hsettles⟩ := settles_of_visit h hv
  rw [hother] at hseen
  cases hseen
  exact hsettles

theorem exists_visit_of_lt (strategy : Strategy) (d : Derivation) {id : Nat}
    (hid : id < (strategy.treeOf d).size) :
    ∃ depth, (depth, id) ∈ (strategy.treeOf d).visits := by
  have hmem : id ∈ (strategy.treeOf d).visits.map (·.2) := by
    refine (strategy.visits_perm_range d).mem_iff.2 (List.mem_range.2 ?_)
    rwa [← strategy.size_treeOf d]
  obtain ⟨⟨depth, _⟩, hv, rfl⟩ := List.mem_map.1 hmem
  exact ⟨depth, hv⟩

theorem exists_settles (h : s.Admits 0 d) {node : Node} (hn : node ∈ (strategy.treeOf d).nodes) :
    ∃ depth, s.Settles (strategy.treeOf d) depth node := by
  obtain ⟨id, hlt, rfl⟩ := Array.mem_iff_getElem.1 hn
  obtain ⟨depth, hv⟩ := strategy.exists_visit_of_lt d hlt
  obtain ⟨node, hnode, hsettles⟩ := settles_of_visit h hv
  refine ⟨depth, ?_⟩
  simp only [Tree.seen?, Array.getElem?_eq_getElem hlt, Option.map_some, Option.some.injEq,
    Prod.mk.injEq, true_and] at hnode
  rwa [hnode]

theorem isComplete_treeOf (h : s.Admits 0 d) : (strategy.treeOf d).isComplete = true := by
  rw [Tree.isComplete, Array.all_eq_true_iff_forall_mem]
  intro node hn
  obtain ⟨depth, hsettles⟩ := exists_settles h hn
  cases hsettles <;> rfl

theorem leaf_iff_not_defines (h : s.Admits 0 d) {node : Node}
    (hn : node ∈ (strategy.treeOf d).nodes) :
    node.state = .leaf ↔ s.grammar.defines node.symbol = false := by
  obtain ⟨depth, hsettles⟩ := exists_settles h hn
  cases hsettles with
  | leaf hl => exact iff_of_true rfl hl
  | expanded ho => simp [Setting.defines_of_options ho]

theorem expanded_iff_defines (h : s.Admits 0 d) {node : Node}
    (hn : node ∈ (strategy.treeOf d).nodes) :
    (∃ index ids, node.state = .expanded index ids) ↔ s.grammar.defines node.symbol = true := by
  obtain ⟨depth, hsettles⟩ := exists_settles h hn
  cases hsettles with
  | leaf hl => simp [hl]
  | expanded ho => exact iff_of_true ⟨_, _, rfl⟩ (Setting.defines_of_options ho)

theorem map_symbol?_children (h : s.Admits 0 d) {node : Node}
    (hn : node ∈ (strategy.treeOf d).nodes) {index : Nat} {ids : List Nat}
    (hstate : node.state = .expanded index ids) :
    ids.map (strategy.treeOf d).symbol? = (s.tokens node.symbol index).map some := by
  obtain ⟨depth, hsettles⟩ := exists_settles h hn
  cases hsettles with
  | leaf => cases hstate
  | expanded _ _ hids =>
      cases hstate
      exact hids

theorem child_lt_size (h : s.Admits 0 d) {node : Node} (hn : node ∈ (strategy.treeOf d).nodes)
    {id : Nat} (hid : id ∈ node.children) : id < (strategy.treeOf d).size := by
  obtain ⟨symbol, state⟩ := node
  cases state with
  | pending => cases hid
  | leaf => cases hid
  | expanded index ids =>
      have hsymbols := map_symbol?_children h hn rfl
      have hmem : (strategy.treeOf d).symbol? id ∈ (s.tokens symbol index).map some := by
        rw [← hsymbols]
        exact List.mem_map_of_mem hid
      obtain ⟨token, -, htoken⟩ := List.mem_map.1 hmem
      obtain ⟨child, hchild, -⟩ := Option.map_eq_some_iff.1 htoken.symm
      exact (Array.getElem?_eq_some_iff.1 hchild).1

variable {g : Grammar} {maxDepth : Nat} {nodeLimit : Option Nat}

theorem follows_rules (h : (Setting.own g maxDepth nodeLimit).Admits 0 d) {node : Node}
    (hn : node ∈ (strategy.treeOf d).nodes) {index : Nat} {ids : List Nat}
    (hstate : node.state = .expanded index ids) :
    ∃ rule, (g.rulesOf node.symbol)[index]? = some rule ∧
      ids.map (strategy.treeOf d).symbol? = rule.tokens.map some := by
  have hsymbols := map_symbol?_children h hn hstate
  obtain ⟨depth, hsettles⟩ := exists_settles h hn
  cases hsettles with
  | leaf => cases hstate
  | expanded ho hrule =>
      cases hstate
      have hindex := List.getElem?_eq_getElem (Setting.lt_length_of_allows ho hrule)
      refine ⟨_, hindex, ?_⟩
      rwa [Setting.tokens_eq hindex] at hsymbols

theorem cheap_of_mem_walk (h : (Setting.own g maxDepth nodeLimit).Admits 0 d) {depth : Nat}
    {node : Node} (hw : (depth, node) ∈ (strategy.treeOf d).walk) (hdepth : maxDepth < depth)
    {index : Nat} {ids : List Nat} (hstate : node.state = .expanded index ids) :
    index ∈ (CostTable.ofGrammar g).cheapRules node.symbol := by
  cases settles_of_mem_walk h hw with
  | leaf => cases hstate
  | expanded ho hrule =>
      cases hstate
      exact (Setting.exists_allows_iff.1 ⟨_, ho, hrule⟩).2 hdepth

theorem valid_treeOf (h : (Setting.own g maxDepth nodeLimit).Admits 0 d) :
    (strategy.treeOf d).Valid g (CostTable.ofGrammar g).cheapRules maxDepth d.root where
  isComplete := isComplete_treeOf h
  root := (strategy.shows_treeOf d).symbol?_eq
  walk_ends fuel hfuel := by
    have hshows := strategy.shows_treeOf d
    rw [Tree.walk, Tree.walkFrom_eq, Tree.walkFrom_eq, strategy.size_treeOf,
      Tree.visitsFrom_root hshows le_rfl,
      Tree.visitsFrom_root hshows (by rwa [strategy.size_treeOf] at hfuel)]
  length_walk := by
    rw [← List.length_map some, map_some_walk h, List.length_map, ← List.length_map (·.2),
      (strategy.visits_perm_range d).length_eq, List.length_range, strategy.size_treeOf]
  walk_visits := map_some_walk h
  visits_perm := by
    rw [strategy.size_treeOf]
    exact strategy.visits_perm_range d
  child_lt node hn id hid := child_lt_size h hn hid
  leaf_iff node hn := leaf_iff_not_defines h hn
  expanded_iff node hn := expanded_iff_defines h hn
  follows node hn index ids hstate := follows_rules h hn hstate
  cheap depth node hw hdepth index ids hstate := cheap_of_mem_walk h hw hdepth hstate

end Strategy

/-! ## Derived trees -/

/-- A derivation that succeeds gives a valid tree, whatever its choices are drawn from. -/
theorem derived_tree_valid (g : Grammar) (strategy : Strategy) (nodeLimit : Option Nat)
    (start : String) (maxDepth : Nat) :
    (∀ source tree after,
      derive g (.ofGrammar g) strategy nodeLimit start maxDepth source = some (.ok tree, after) →
        tree.Valid g (CostTable.ofGrammar g).cheapRules maxDepth start) ∧
    ∀ (σ : Type) (choose : Chooser σ) (source : σ) (after : Growth σ),
      choose.Obeys (strategy.setting g maxDepth nodeLimit) →
        (strategy.setting g maxDepth nodeLimit).grow strategy choose start source =
          some (.ok (), after) →
        after.tree.Valid g (CostTable.ofGrammar g).cheapRules maxDepth start := by
  have hgrow : ∀ (σ : Type) (choose : Chooser σ) (source : σ) (after : Growth σ),
      choose.Obeys (strategy.setting g maxDepth nodeLimit) →
        (strategy.setting g maxDepth nodeLimit).grow strategy choose start source =
          some (.ok (), after) →
        after.tree.Valid g (CostTable.ofGrammar g).cheapRules maxDepth start := by
    intro σ choose source after hobeys hgrow
    rw [strategy.setting_eq_own] at hobeys hgrow
    obtain ⟨d, hyields⟩ := (Setting.grow_eq_ok_iff hobeys).1 hgrow
    rw [hyields.tree, ← hyields.root]
    exact Strategy.valid_treeOf hyields.admits
  refine ⟨fun source tree after hderive => ?_, hgrow⟩
  exact hgrow Source Source.choose source _ (Source.obeys_choose _) (derive_eq_ok_iff.1 hderive)

/-- A letter in any number of brackets. -/
def Grammar.nested : Grammar :=
  ⟨⟨[("<s>", [⟨["a"]⟩, ⟨["(", "<s>", ")"]⟩])], List.pairwise_singleton _ _⟩⟩

theorem Grammar.rulesOf_nested (symbol : String) :
    nested.rulesOf symbol = [] ∨ symbol = "<s>" := by
  by_cases h : symbol = "<s>"
  · exact .inr h
  · left
    simp [rulesOf, nested, SymbolMap.get?, List.lookup, beq_eq_false_iff_ne.2 h]

def Tree.nested : Tree :=
  ⟨#[⟨"<s>", .expanded 1 [1, 2, 3]⟩, ⟨"(", .leaf⟩, ⟨"<s>", .expanded 0 [4]⟩, ⟨")", .leaf⟩,
    ⟨"a", .leaf⟩]⟩

theorem derived_nested_valid :
    derive .nested (.ofGrammar .nested) .levelOrder (some 5) "<s>" 0
        (.ofScript [9223372036854775808]) = some (.ok .nested, ⟨.script [], 1, 1⟩) ∧
      Tree.nested.Valid .nested (CostTable.ofGrammar .nested).cheapRules 0 "<s>" := by
  have hderive : derive .nested (.ofGrammar .nested) .levelOrder (some 5) "<s>" 0
      (.ofScript [9223372036854775808]) = some (.ok .nested, ⟨.script [], 1, 1⟩) := by
    decide +kernel
  have hvalid := derived_tree_valid .nested .levelOrder (some 5) "<s>" 0
  have hgrow := derive_eq_ok_iff.1 hderive
  exact ⟨hderive, hvalid.2 Source Source.choose _ _ (Source.obeys_choose _) hgrow⟩

end GrammarSampler

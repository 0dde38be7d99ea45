import GrammarSampler.Engine.Derive
import GrammarSampler.Proofs.Engine.Admitted

/-!
# Layouts

How the two orders lay out a derivation in a tree: the sites in the order in which they are added,
each with the node that it becomes. In both orders this is also the order in which rules are chosen.
-/

namespace GrammarSampler

namespace Derivation

def children : Derivation → List Derivation
  | .leaf _ | .pending _ => []
  | .node _ _ children => children

theorem size_eq (d : Derivation) : d.size = sizes d.children + 1 := by
  cases d <;> simp [size, children, sizes]

theorem sizes_append (ds es : List Derivation) : sizes (ds ++ es) = sizes ds + sizes es := by
  induction ds with
  | nil => simp [sizes]
  | cons d ds ih => simp [sizes, ih, Nat.add_assoc]

theorem length_le_sizes (ds : List Derivation) : ds.length ≤ sizes ds := by
  induction ds with
  | nil => exact Nat.le_refl _
  | cons d ds ih =>
      rw [List.length_cons, sizes, size_eq]
      omega

end Derivation

/-! ## What is chosen -/

def pick? (entry : Site × Node) : Option (Site × Nat) :=
  match entry.2.state with
  | .expanded rule _ => some (entry.1, rule)
  | .pending | .leaf => none

/-- The sites of the expanded nodes, with their rules. -/
def picks (layout : List (Site × Node)) : List (Site × Nat) := layout.filterMap pick?

theorem picks_append (l m : List (Site × Node)) : picks (l ++ m) = picks l ++ picks m :=
  List.filterMap_append

theorem picks_cons_expanded (site : Site) (symbol : String) (rule : Nat) (children : List Nat)
    (l : List (Site × Node)) :
    picks ((site, ⟨symbol, .expanded rule children⟩) :: l) = (site, rule) :: picks l := rfl

/-! ## Laying out -/

namespace Setting

variable {σ : Type} {s : Setting} {choose : Chooser σ} {source : σ} {nodes : List Node}
  {l m : List (Site × Node)} {after : Growth σ}

/-- Whether the layout, put after `nodes`, is what choices from `source` lead to. The tree has grown
to `size` before, and all that is added has to fit. -/
structure Leads (s : Setting) (choose : Chooser σ) (source : σ) (nodes : List Node) (size : Nat)
    (layout : List (Site × Node)) (after : Growth σ) : Prop where
  choices : s.Choices choose source (picks layout) after.source
  tree : after.tree = .ofNodes (nodes ++ layout.map (·.2))
  fits : s.MayGrow size (nodes.length + layout.length)

theorem leads_nil_iff :
    s.Leads choose source nodes nodes.length [] after ↔ after = ⟨.ofNodes nodes, source⟩ := by
  apply Iff.intro
  · intro h
    obtain ⟨hchoices, htree, -⟩ := h
    obtain ⟨tree, last⟩ := after
    cases hchoices
    simpa using htree
  · intro h
    subst h
    exact ⟨rfl, by simp, s.mayGrow_self _⟩

theorem leads_append_iff {size : Nat} (hsize : size ≤ nodes.length + l.length) :
    s.Leads choose source nodes size (l ++ m) after ↔
      ∃ middle, s.Leads choose source nodes size l middle ∧
        s.Leads choose middle.source (nodes ++ l.map (·.2)) (nodes.length + l.length) m after := by
  have hgrow := s.mayGrow_trans_iff hsize (Nat.le_add_right (nodes.length + l.length) m.length)
  apply Iff.intro
  · intro h
    obtain ⟨hchoices, htree, hfits⟩ := h
    rw [picks_append, choices_append] at hchoices
    obtain ⟨middle, hl, hm⟩ := hchoices
    rw [List.length_append, ← Nat.add_assoc] at hfits
    obtain ⟨hfl, hfm⟩ := hgrow.2 hfits
    exact ⟨⟨.ofNodes (nodes ++ l.map (·.2)), middle⟩, ⟨hl, rfl, hfl⟩, hm, by simpa using htree,
      by simpa using hfm⟩
  · intro h
    obtain ⟨middle, ⟨hl, -, hfl⟩, hm, htree, hfm⟩ := h
    refine ⟨?_, by simpa using htree, ?_⟩
    · rw [picks_append, choices_append]
      exact ⟨middle.source, hl, hm⟩
    · rw [List.length_append, ← Nat.add_assoc]
      exact hgrow.1 ⟨hfl, by simpa using hfm⟩

theorem leads_grow_iff {m n : Nat} (hmn : m ≤ n) (hn : n ≤ nodes.length + l.length) :
    s.Leads choose source nodes m l after ↔
      s.MayGrow m n ∧ s.Leads choose source nodes n l after := by
  have hgrow := s.mayGrow_trans_iff hmn hn
  apply Iff.intro
  · intro h
    obtain ⟨hchoices, htree, hfits⟩ := h
    exact ⟨(hgrow.2 hfits).1, hchoices, htree, (hgrow.2 hfits).2⟩
  · intro h
    obtain ⟨hfirst, hchoices, htree, hmore⟩ := h
    exact ⟨hchoices, htree, hgrow.1 ⟨hfirst, hmore⟩⟩

theorem leads_cons_iff {entry : Site × Node} {size : Nat} :
    s.Leads choose source nodes size (entry :: l) after ↔
      ∃ next, s.Choices choose source (picks [entry]) next ∧
        s.Leads choose next (nodes ++ [entry.2]) size l after := by
  have hlength : nodes.length + (l.length + 1) = (nodes ++ [entry.2]).length + l.length := by
    simp [Nat.add_assoc, Nat.add_comm 1]
  have hpicks : picks (entry :: l) = picks [entry] ++ picks l := picks_append [entry] l
  apply Iff.intro
  · intro h
    obtain ⟨hchoices, htree, hfits⟩ := h
    rw [hpicks, choices_append] at hchoices
    obtain ⟨next, hfirst, hmore⟩ := hchoices
    exact ⟨next, hfirst, hmore, by simpa using htree, hlength ▸ hfits⟩
  · intro h
    obtain ⟨next, hfirst, hmore, htree, hfits⟩ := h
    refine ⟨?_, by simpa using htree, hlength.symm ▸ hfits⟩
    rw [hpicks, choices_append]
    exact ⟨next, hfirst, hmore⟩

theorem leads_cons_leaf_iff {site : Site} {symbol : String} {size : Nat} :
    s.Leads choose source nodes size ((site, ⟨symbol, .leaf⟩) :: l) after ↔
      s.Leads choose source (nodes ++ [⟨symbol, .leaf⟩]) size l after := by
  have hpicks : picks [(site, Node.mk symbol .leaf)] = [] := rfl
  simp [leads_cons_iff, hpicks, Choices]

theorem leads_cons_expanded_iff {site : Site} {symbol : String} {rule size : Nat}
    {children : List Nat} :
    s.Leads choose source nodes size ((site, ⟨symbol, .expanded rule children⟩) :: l) after ↔
      ∃ options next, s.options site.symbol site.depth = .ok options ∧
        choose site options source = some (rule, next) ∧
        s.Leads choose next (nodes ++ [⟨symbol, .expanded rule children⟩]) size l after := by
  rw [leads_cons_iff, picks_cons_expanded]
  apply Iff.intro
  · intro h
    obtain ⟨_, ⟨options, next, ho, hc, rfl⟩, hleads⟩ := h
    exact ⟨options, next, ho, hc, hleads⟩
  · intro h
    obtain ⟨options, next, ho, hc, hleads⟩ := h
    exact ⟨next, ⟨options, next, ho, hc, rfl⟩, hleads⟩

end Setting

/-! ## Depth first -/

namespace DepthFirst

/-- The sites of the children of `parent`, which begin at `index` and `id`. -/
def siblings (parent : Site) : Nat → Nat → List Derivation → List Site
  | _, _, [] => []
  | index, id, d :: ds =>
    parent.child index d.root id :: siblings parent (index + 1) (id + d.size) ds

mutual

/-- The layout of a derivation at a site; what is below a child comes before the next child. -/
def lay : Site → Derivation → List (Site × Node)
  | site, .leaf symbol => [(site, ⟨symbol, .leaf⟩)]
  | site, .pending symbol => [(site, ⟨symbol, .pending⟩)]
  | site, .node symbol rule children =>
    (site, ⟨symbol, .expanded rule ((siblings site 0 (site.id + 1) children).map (·.id))⟩) ::
      layAll site 0 (site.id + 1) children

def layAll (parent : Site) : Nat → Nat → List Derivation → List (Site × Node)
  | _, _, [] => []
  | index, id, d :: ds =>
    lay (parent.child index d.root id) d ++ layAll parent (index + 1) (id + d.size) ds

end

mutual

theorem length_lay : (site : Site) → (d : Derivation) → (lay site d).length = d.size
  | _, .leaf _ => rfl
  | _, .pending _ => rfl
  | site, .node _ _ children => by
      simp [lay, Derivation.size, length_layAll site 0 (site.id + 1) children]

theorem length_layAll (parent : Site) :
    (index id : Nat) → (ds : List Derivation) →
      (layAll parent index id ds).length = Derivation.sizes ds
  | _, _, [] => rfl
  | index, id, d :: ds => by
      simp [layAll, Derivation.sizes, length_lay (parent.child index d.root id) d,
        length_layAll parent (index + 1) (id + d.size) ds]

end

end DepthFirst

/-! ## Level order -/

namespace LevelOrder

def adjacent (parent : Site) : Nat → Nat → List Derivation → List (Site × Derivation)
  | _, _, [] => []
  | index, id, d :: ds =>
    (parent.child index d.root id, d) :: adjacent parent (index + 1) (id + 1) ds

/-- What the root of a derivation becomes if its children begin at `id`. -/
def nodeAt (id : Nat) : Derivation → Node
  | .leaf symbol => ⟨symbol, .leaf⟩
  | .pending symbol => ⟨symbol, .pending⟩
  | .node symbol rule children => ⟨symbol, .expanded rule (List.range' id children.length)⟩

theorem map_snd_adjacent (parent : Site) (index id : Nat) (ds : List Derivation) :
    (adjacent parent index id ds).map (·.2) = ds := by
  induction ds generalizing index id with
  | nil => rfl
  | cons d ds ih => simp [adjacent, ih]

theorem length_adjacent (parent : Site) (index id : Nat) (ds : List Derivation) :
    (adjacent parent index id ds).length = ds.length := by
  rw [← List.length_map (·.2), map_snd_adjacent]

/-- The layout of the derivations in a queue, where the next new node is `id`. The children of each
go to the end of the queue. -/
def lay (id : Nat) : List (Site × Derivation) → List (Site × Node)
  | [] => []
  | (site, d) :: queue =>
    (site, nodeAt id d) :: lay (id + d.children.length) (queue ++ adjacent site 0 id d.children)
termination_by queue => Derivation.sizes (queue.map (·.2))
decreasing_by
  simp [Derivation.sizes, Derivation.sizes_append, map_snd_adjacent, Derivation.size_eq]
  omega

theorem length_lay (id : Nat) (queue : List (Site × Derivation)) :
    (lay id queue).length = Derivation.sizes (queue.map (·.2)) := by
  fun_induction lay id queue with
  | case1 => rfl
  | case2 id site d queue ih =>
      simp only [List.length_cons, ih, List.map_append, List.map_cons, Derivation.sizes_append,
        map_snd_adjacent, Derivation.sizes, Derivation.size_eq d]
      omega

end LevelOrder

/-! ## Both orders -/

namespace Strategy

/-- The layout of a derivation from its root. -/
def lay (strategy : Strategy) (d : Derivation) : List (Site × Node) :=
  match strategy with
  | .levelOrder => LevelOrder.lay 1 [(.root d.root, d)]
  | .depthFirst => DepthFirst.lay (.root d.root) d

/-- The tree that lays out a derivation. -/
def treeOf (strategy : Strategy) (d : Derivation) : Tree := .ofNodes ((strategy.lay d).map (·.2))

theorem length_lay (strategy : Strategy) (d : Derivation) : (strategy.lay d).length = d.size := by
  cases strategy with
  | levelOrder => simp [lay, LevelOrder.length_lay, Derivation.sizes]
  | depthFirst => exact DepthFirst.length_lay _ d

theorem size_treeOf (strategy : Strategy) (d : Derivation) : (strategy.treeOf d).size = d.size := by
  simp [treeOf, length_lay]

end Strategy

end GrammarSampler

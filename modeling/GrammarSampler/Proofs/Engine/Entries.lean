import GrammarSampler.Proofs.Engine.Layout

/-!
# Entries of layouts

In the layout of an admitted derivation every site becomes a leaf or is expanded by a rule that may
be chosen there. So choices lead to the derivation as soon as each of them can be made.
-/

namespace GrammarSampler

variable {σ : Type} {s : Setting} {choose : Chooser σ}

/-- Whether a site may become its node. -/
inductive Setting.Suits (s : Setting) : Site × Node → Prop
  | leaf {site : Site} : Suits s (site, ⟨site.symbol, .leaf⟩)
  | expanded {site : Site} {options : Options} {rule : Nat} {ids : List Nat}
      (hoptions : s.options site.symbol site.depth = .ok options) (hrule : options.Allows rule) :
      Suits s (site, ⟨site.symbol, .expanded rule ids⟩)

namespace DepthFirst

open Setting (Suits)

mutual

theorem suits_of_mem_lay {entry : Site × Node} : (site : Site) → (d : Derivation) →
    s.Admits site.depth d → d.root = site.symbol → entry ∈ lay site d → s.Suits entry
  | site, .leaf _, _, hroot, he => by
      obtain rfl := hroot
      obtain rfl := List.mem_singleton.1 he
      exact .leaf
  | _, .pending _, ha, _, _ => nomatch ha
  | site, .node _ rule ds, ha, hroot, he => by
      obtain rfl := hroot
      cases ha with
      | node ho hrule _ hchildren =>
          rcases List.mem_cons.1 he with rfl | he
          · exact .expanded ho hrule
          · exact suits_of_mem_layAll site 0 (site.id + 1) ds hchildren he

theorem suits_of_mem_layAll {entry : Site × Node} (parent : Site) : (index id : Nat) →
    (ds : List Derivation) → (∀ d ∈ ds, s.Admits (parent.depth + 1) d) →
      entry ∈ layAll parent index id ds → s.Suits entry
  | _, _, [], _, he => nomatch he
  | index, id, d :: ds, ha, he => by
      obtain ⟨hd, hds⟩ := List.forall_mem_cons.1 ha
      rcases List.mem_append.1 he with he | he
      · exact suits_of_mem_lay (parent.child index d.root id) d hd rfl he
      · exact suits_of_mem_layAll parent (index + 1) (id + d.size) ds hds he

end

end DepthFirst

namespace LevelOrder

theorem admits_of_mem_adjacent {parent : Site} {index id : Nat} {ds : List Derivation}
    (h : ∀ d ∈ ds, s.Admits (parent.depth + 1) d) :
    ∀ e ∈ adjacent parent index id ds, s.Admits e.1.depth e.2 ∧ e.2.root = e.1.symbol := by
  induction ds generalizing index id with
  | nil => simp [adjacent]
  | cons d ds ih =>
      obtain ⟨hd, hds⟩ := List.forall_mem_cons.1 h
      exact List.forall_mem_cons.2 ⟨⟨hd, rfl⟩, ih hds⟩

theorem suits_of_mem_lay {id : Nat} {queue : List (Site × Derivation)}
    (h : ∀ e ∈ queue, s.Admits e.1.depth e.2 ∧ e.2.root = e.1.symbol) :
    ∀ entry ∈ lay id queue, s.Suits entry := by
  fun_induction lay id queue with
  | case1 => simp
  | case2 id site d queue ih =>
      obtain ⟨⟨ha, hroot⟩, hqueue⟩ := List.forall_mem_cons.1 h
      have hroot : d.root = site.symbol := hroot
      cases ha with
      | leaf =>
          obtain rfl := hroot
          refine List.forall_mem_cons.2 ⟨.leaf, ih ?_⟩
          exact List.forall_mem_append.2
            ⟨hqueue, admits_of_mem_adjacent (by simp [Derivation.children])⟩
      | node ho hrule _ hchildren =>
          obtain rfl := hroot
          refine List.forall_mem_cons.2 ⟨.expanded ho hrule, ih ?_⟩
          exact List.forall_mem_append.2 ⟨hqueue, admits_of_mem_adjacent hchildren⟩

end LevelOrder

theorem Strategy.suits_of_mem_lay (strategy : Strategy) {d : Derivation} (h : s.Admits 0 d) :
    ∀ entry ∈ strategy.lay d, s.Suits entry := by
  cases strategy with
  | depthFirst => exact fun entry he => DepthFirst.suits_of_mem_lay _ d h rfl he
  | levelOrder => exact LevelOrder.suits_of_mem_lay (List.forall_mem_singleton.2 ⟨h, rfl⟩)

end GrammarSampler

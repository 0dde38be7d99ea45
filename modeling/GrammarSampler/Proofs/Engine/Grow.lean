import GrammarSampler.Proofs.Engine.LevelOrder

/-!
# Derivations that succeed

Both orders succeed with the same derivations: those that the policy admits, if they fit. An order
decides only where the nodes stand in the tree and in which turn the rules are chosen.
-/

namespace GrammarSampler.Setting

variable {σ : Type} {s : Setting} {choose : Chooser σ} {strategy : Strategy} {start : String}
  {source : σ} {after : Growth σ} {d : Derivation}

/-! ## Cases -/

theorem grow_of_not_defines (hd : s.grammar.defines start = false) :
    s.grow strategy choose start source =
      Run.settle (Site.root start).id .leaf ⟨.single start, source⟩ := by
  unfold grow
  simp only [hd, Bool.false_eq_true, if_false]

theorem grow_depthFirst (hd : s.grammar.defines start = true) :
    s.grow .depthFirst choose start source =
      DepthFirst.expand s choose s.levels (.root start) ⟨.single start, source⟩ := by
  unfold grow
  simp only [hd, if_true]

theorem grow_levelOrder (hd : s.grammar.defines start = true) :
    s.grow .levelOrder choose start source =
      LevelOrder.expandAll s choose s.levels [.root start] ⟨.single start, source⟩ := by
  unfold grow
  simp only [hd, if_true]

/-! ## Success -/

/-- Whether a derivation from `start` is what choices from `source` lead to in the given order. -/
structure Yields (s : Setting) (strategy : Strategy) (choose : Chooser σ) (start : String)
    (source : σ) (after : Growth σ) (d : Derivation) : Prop where
  root : d.root = start
  admits : s.Admits 0 d
  height_le : d.height ≤ s.levels
  choices : s.Choices choose source (picks (strategy.lay d)) after.source
  tree : after.tree = strategy.treeOf d
  fits : s.MayGrow 1 d.size

theorem yields_iff : s.Yields strategy choose start source after d ↔
    d.root = start ∧ s.Admits 0 d ∧ d.height ≤ s.levels ∧
      s.Leads choose source [] 1 (strategy.lay d) after := by
  have hlength : ([] : List Node).length + (strategy.lay d).length = d.size := by
    rw [List.length_nil, Nat.zero_add, Strategy.length_lay]
  apply Iff.intro
  · intro h
    obtain ⟨hroot, hadmits, hheight, hchoices, htree, hfits⟩ := h
    exact ⟨hroot, hadmits, hheight, hchoices, htree, hlength ▸ hfits⟩
  · intro h
    obtain ⟨hroot, hadmits, hheight, hchoices, htree, hfits⟩ := h
    exact ⟨hroot, hadmits, hheight, hchoices, htree, hlength ▸ hfits⟩

theorem exists_yields_depthFirst_iff :
    (∃ d, s.Yields .depthFirst choose start source after d) ↔
      ∃ d, DepthFirst.Grows s choose s.levels source [] (.root start) after d := by
  refine exists_congr fun d => yields_iff.trans (and_congr_right fun hroot => ?_)
  rw [Strategy.lay, hroot]
  rfl

theorem exists_yields_levelOrder_iff :
    (∃ d, s.Yields .levelOrder choose start source after d) ↔
      ∃ queue, LevelOrder.Grows s s.levels [.root start] queue ∧
        s.Leads choose source [] 1 (LevelOrder.lay 1 queue) after := by
  apply Iff.intro
  · intro h
    obtain ⟨d, hyields⟩ := h
    obtain ⟨hroot, hadmits, hheight, hleads⟩ := yields_iff.1 hyields
    rw [Strategy.lay, hroot] at hleads
    refine ⟨[(.root start, d)], ?_, hleads⟩
    exact LevelOrder.grows_cons_iff.2
      ⟨d, [], rfl, hroot, hadmits, hheight, LevelOrder.grows_nil_iff.2 rfl⟩
  · intro h
    obtain ⟨queue, hgrows, hleads⟩ := h
    obtain ⟨d, rest, rfl, hroot, hadmits, hheight, hrest⟩ := LevelOrder.grows_cons_iff.1 hgrows
    obtain rfl := LevelOrder.grows_nil_iff.1 hrest
    have hroot : d.root = start := hroot
    refine ⟨d, yields_iff.2 ⟨hroot, hadmits, hheight, ?_⟩⟩
    rw [Strategy.lay, hroot]
    exact hleads

theorem settle_root_eq_ok_iff (hd : s.grammar.defines start = false) :
    Run.settle (Site.root start).id .leaf ⟨.single start, source⟩ = some (.ok (), after) ↔
      ∃ d, s.Yields strategy choose start source after d := by
  have hsettle : Run.settle (Site.root start).id .leaf ⟨.single start, source⟩ =
      some (.ok (), after) ↔ after = ⟨.ofNodes [⟨start, .leaf⟩], source⟩ :=
    Run.settle_eq_ok_iff
  rw [hsettle]
  cases strategy with
  | depthFirst =>
      rw [exists_yields_depthFirst_iff, DepthFirst.exists_grows_iff_of_not_defines hd]
      rfl
  | levelOrder =>
      have hwait : LevelOrder.waiting s [.root start] = [] := by
        simp [LevelOrder.waiting, Site.root, hd]
      have hleaf := @LevelOrder.exists_grows_iff_of_waiting_eq_nil σ s choose s.levels source []
        after _ hwait
      rw [exists_yields_levelOrder_iff]
      refine Iff.trans ?_ hleaf.symm
      simp [fresh, stateOf, Site.root, hd]

theorem grow_eq_ok_iff (hobeys : choose.Obeys s) :
    s.grow strategy choose start source = some (.ok (), after) ↔
      ∃ d, s.Yields strategy choose start source after d := by
  cases hd : s.grammar.defines start with
  | false =>
      rw [grow_of_not_defines hd]
      exact settle_root_eq_ok_iff hd
  | true =>
      have hstate : s.stateOf start = .pending := by simp [stateOf, hd]
      cases strategy with
      | depthFirst =>
          have hvisit :=
            @DepthFirst.visits_visit σ s choose hobeys s.levels [] source (.root start) after rfl
          have hroot : s.grammar.defines (Site.root start).symbol = true := hd
          rw [grow_depthFirst hd, exists_yields_depthFirst_iff, ← hvisit, DepthFirst.visit,
            if_pos hroot]
          simp only [Site.root, hstate, Tree.single_eq_ofNodes, List.nil_append]
      | levelOrder =>
          have hwait : LevelOrder.waiting s [.root start] = [.root start] := by
            simp [LevelOrder.waiting, Site.root, hd]
          have hexpands :=
            @LevelOrder.expands σ s choose hobeys s.levels [] [.root start] source after rfl
          rw [grow_levelOrder hd, exists_yields_levelOrder_iff]
          refine Iff.trans ?_ hexpands
          rw [hwait]
          simp only [fresh, Site.root, hstate, Tree.single_eq_ofNodes, List.nil_append,
            List.map_singleton]

end GrammarSampler.Setting

import GrammarSampler.Proofs.Engine.Layout

/-!
# Depth first lays out derivations

A depth-first derivation succeeds if and only if its choices lead to an admitted derivation of which
every part fits, and then it lays out this derivation.
-/

namespace GrammarSampler.DepthFirst

variable {σ : Type} {s : Setting} {choose : Chooser σ} {levels : Nat} {source : σ}
  {nodes : List Node} {after : Growth σ} {site : Site}

def visit (s : Setting) (choose : Chooser σ) (levels : Nat) (child : Site) : Run σ Unit :=
  if s.grammar.defines child.symbol then expand s choose levels child else pure ()

theorem expand_succ_eq_ok_iff {growth : Growth σ} :
    expand s choose (levels + 1) site growth = some (.ok (), after) ↔
      ∃ options rule source children grown, s.options site.symbol site.depth = .ok options ∧
        choose site options growth.source = some (rule, source) ∧
        Run.addChildren s (visit s choose levels) site 0 (s.tokens site.symbol rule)
          ⟨growth.tree, source⟩ = some (.ok children, grown) ∧
        after = ⟨grown.tree.resolve site.id (.expanded rule (children.map (·.id))),
          grown.source⟩ := by
  show (Run.chooseRule s choose site >>= fun rule =>
    Run.addChildren s (visit s choose levels) site 0 (s.tokens site.symbol rule) >>= fun children =>
      Run.settle site.id (.expanded rule (children.map (·.id)))) growth = _ ↔ _
  simp only [Run.bind_eq_ok_iff, Run.chooseRule_eq_ok_iff, Run.settle_eq_ok_iff]
  apply Iff.intro
  · intro h
    obtain ⟨rule, _, ⟨options, source, ho, hc, rfl⟩, children, grown, hadd, rfl⟩ := h
    exact ⟨options, rule, source, children, grown, ho, hc, hadd, rfl⟩
  · intro h
    obtain ⟨options, rule, source, children, grown, ho, hc, hadd, rfl⟩ := h
    exact ⟨rule, _, ⟨options, source, ho, hc, rfl⟩, children, grown, hadd, rfl⟩

/-- Whether `d`, laid out at `site` as the next node, is what choices from `source` lead to. -/
def Grows (s : Setting) (choose : Chooser σ) (levels : Nat) (source : σ) (nodes : List Node)
    (site : Site) (after : Growth σ) (d : Derivation) : Prop :=
  d.root = site.symbol ∧ s.Admits site.depth d ∧ d.height ≤ levels ∧
    s.Leads choose source nodes (nodes.length + 1) (lay site d) after

/-- A visit to a new node succeeds if and only if some derivation grows there. -/
def Visits (s : Setting) (choose : Chooser σ) (levels : Nat) (visit : Site → Run σ Unit) : Prop :=
  ∀ nodes source site after, site.id = nodes.length →
    (visit site ⟨.ofNodes (nodes ++ [⟨site.symbol, s.stateOf site.symbol⟩]), source⟩ =
      some (.ok (), after) ↔ ∃ d, Grows s choose levels source nodes site after d)

theorem leads_lay_iff (site : Site) (d : Derivation) :
    s.Leads choose source nodes nodes.length (lay site d) after ↔
      s.Fits (nodes.length + 1) ∧
        s.Leads choose source nodes (nodes.length + 1) (lay site d) after := by
  rw [← Setting.mayGrow_succ]
  refine Setting.leads_grow_iff (Nat.le_succ _) ?_
  rw [length_lay, Derivation.size_eq]
  omega

theorem addChildren_eq_ok_iff {visit : Site → Run σ Unit} (hvisit : Visits s choose levels visit)
    {tokens : List String} {index : Nat} {children : List Site} :
    Run.addChildren s visit site index tokens ⟨.ofNodes nodes, source⟩ =
        some (.ok children, after) ↔
      ∃ ds, ds.map Derivation.root = tokens ∧
        (∀ d ∈ ds, s.Admits (site.depth + 1) d ∧ d.height ≤ levels) ∧
        children = siblings site index nodes.length ds ∧
        s.Leads choose source nodes nodes.length (layAll site index nodes.length ds) after := by
  induction tokens generalizing index nodes source children with
  | nil =>
      rw [Run.addChildren_nil_eq_ok_iff]
      apply Iff.intro
      · intro h
        obtain ⟨rfl, rfl⟩ := h
        exact ⟨[], rfl, by simp, rfl, Setting.leads_nil_iff.2 rfl⟩
      · intro h
        obtain ⟨ds, hroots, -, rfl, hleads⟩ := h
        obtain rfl := List.map_eq_nil_iff.1 hroots
        exact ⟨rfl, (Setting.leads_nil_iff.1 hleads).symm⟩
  | cons token tokens ih =>
      rw [Run.addChildren_cons_eq_ok_iff]
      simp only [Tree.size_ofNodes, Tree.push_ofNodes]
      have hid : (site.child index token nodes.length).id = nodes.length := rfl
      apply Iff.intro
      · intro h
        obtain ⟨hfits, middle, rest, hv, hrest, rfl⟩ := h
        obtain ⟨d, hroot, hadmits, hheight, hlead⟩ := (hvisit _ _ _ _ hid).1 hv
        obtain ⟨tree, next⟩ := middle
        obtain rfl := hlead.tree
        obtain ⟨ds, hroots, hds, rfl, hleads⟩ := ih.1 hrest
        have hroot : d.root = token := hroot
        refine ⟨d :: ds, by simp [hroot, hroots], ?_, ?_, ?_⟩
        · simpa using ⟨⟨hadmits, hheight⟩, hds⟩
        · simp [siblings, hroot, length_lay]
        · rw [layAll, Setting.leads_append_iff (Nat.le_add_right _ _), hroot]
          refine ⟨_, (leads_lay_iff _ _).2 ⟨hfits, hlead⟩, ?_⟩
          simpa [length_lay] using hleads
      · intro h
        obtain ⟨ds, hroots, hds, rfl, hleads⟩ := h
        obtain ⟨d, ds, rfl, rfl, rfl⟩ := List.map_eq_cons_iff.1 hroots
        rw [layAll, Setting.leads_append_iff (Nat.le_add_right _ _)] at hleads
        obtain ⟨⟨tree, next⟩, hlead, hleads⟩ := hleads
        obtain ⟨hfits, hlead⟩ := (leads_lay_iff _ _).1 hlead
        have hd := hds d (by simp)
        refine ⟨hfits, ⟨tree, next⟩, _, (hvisit _ _ _ _ hid).2 ⟨d, rfl, hd.1, hd.2, hlead⟩, ?_, rfl⟩
        obtain rfl := hlead.tree
        refine ih.2 ⟨ds, rfl, fun e he => hds e (by simp [he]), ?_, ?_⟩
        · simp [length_lay]
        · simpa [length_lay] using hleads

/-- The node of a derivation waits while all below it is laid out, and is settled then. -/
theorem leads_lay_node_iff {rule : Nat} {ds : List Derivation} (hid : site.id = nodes.length) :
    s.Leads choose source nodes (nodes.length + 1) (lay site (.node site.symbol rule ds)) after ↔
      ∃ options next tree, s.options site.symbol site.depth = .ok options ∧
        choose site options source = some (rule, next) ∧
        s.Leads choose next (nodes ++ [⟨site.symbol, .pending⟩]) (nodes.length + 1)
          (layAll site 0 (nodes.length + 1) ds) ⟨tree, after.source⟩ ∧
        after.tree = tree.resolve site.id
          (.expanded rule ((siblings site 0 (nodes.length + 1) ds).map (·.id))) := by
  have hlength : nodes.length + ((layAll site 0 (nodes.length + 1) ds).length + 1) =
      (nodes ++ [Node.mk site.symbol .pending]).length +
        (layAll site 0 (nodes.length + 1) ds).length := by
    simp [Nat.add_assoc, Nat.add_comm 1]
  have hresolve (later : List Node) (state : NodeState) :
      (Tree.ofNodes (nodes ++ [⟨site.symbol, .pending⟩] ++ later)).resolve site.id state =
        .ofNodes (nodes ++ ⟨site.symbol, state⟩ :: later) := by
    rw [List.append_assoc, List.singleton_append, hid, Tree.resolve_ofNodes]
  rw [lay, hid]
  apply Iff.intro
  · intro h
    obtain ⟨⟨options, next, ho, hc, hchoices⟩, htree, hfits⟩ := h
    refine ⟨options, next, .ofNodes (nodes ++ [⟨site.symbol, .pending⟩] ++
      (layAll site 0 (nodes.length + 1) ds).map (·.2)), ho, hc, ?_, ?_⟩
    · exact ⟨hchoices, rfl, hlength ▸ hfits⟩
    · exact htree.trans (hid ▸ hresolve _ _).symm
  · intro h
    obtain ⟨options, next, tree, ho, hc, ⟨hchoices, rfl, hfits⟩, htree⟩ := h
    refine ⟨⟨options, next, ho, hc, hchoices⟩, ?_, hlength ▸ hfits⟩
    exact htree.trans (hid ▸ hresolve _ _)

theorem expand_succ_iff (hobeys : choose.Obeys s)
    (hvisit : Visits s choose levels (visit s choose levels))
    (hid : site.id = nodes.length) (hd : s.grammar.defines site.symbol = true) :
    expand s choose (levels + 1) site ⟨.ofNodes (nodes ++ [⟨site.symbol, .pending⟩]), source⟩ =
        some (.ok (), after) ↔
      ∃ d, Grows s choose (levels + 1) source nodes site after d := by
  have hlength : (nodes ++ [Node.mk site.symbol .pending]).length = nodes.length + 1 :=
    List.length_append
  rw [expand_succ_eq_ok_iff]
  apply Iff.intro
  · intro h
    obtain ⟨options, rule, next, children, ⟨tree, last⟩, ho, hc, hadd, rfl⟩ := h
    obtain ⟨ds, hroots, hds, rfl, hleads⟩ := (addChildren_eq_ok_iff hvisit).1 hadd
    rw [hlength] at hleads ⊢
    obtain ⟨hadmits, hheight⟩ := Setting.admits_node_iff.2
      ⟨⟨options, ho, hobeys _ _ _ _ _ ho hc⟩, hroots, hds⟩
    refine ⟨.node site.symbol rule ds, rfl, hadmits, hheight, (leads_lay_node_iff hid).2 ?_⟩
    exact ⟨options, next, tree, ho, hc, hleads, rfl⟩
  · intro h
    obtain ⟨d, hroot, hadmits, hheight, hleads⟩ := h
    obtain ⟨rule, ds, rfl⟩ := hadmits.exists_node hroot hd
    obtain ⟨-, hroots, hds⟩ := Setting.admits_node_iff.1 ⟨hadmits, hheight⟩
    obtain ⟨options, next, tree, ho, hc, hleads, htree⟩ := (leads_lay_node_iff hid).1 hleads
    rw [← hlength] at hleads htree
    refine ⟨options, rule, next, _, _, ho, hc,
      (addChildren_eq_ok_iff hvisit).2 ⟨ds, hroots, hds, rfl, hleads⟩, ?_⟩
    rw [← htree]

theorem exists_grows_iff_of_not_defines (hd : s.grammar.defines site.symbol = false) :
    (∃ d, Grows s choose levels source nodes site after d) ↔
      after = ⟨.ofNodes (nodes ++ [⟨site.symbol, .leaf⟩]), source⟩ := by
  apply Iff.intro
  · intro h
    obtain ⟨d, hroot, hadmits, -, hchoices, htree, -⟩ := h
    have hleaf := hadmits.eq_leaf (by rw [hroot, hd])
    rw [hleaf, hroot] at hchoices htree
    obtain ⟨tree, last⟩ := after
    cases hchoices
    simpa [lay] using htree
  · intro h
    subst h
    refine ⟨.leaf site.symbol, rfl, .leaf hd, Nat.zero_le _, rfl, rfl, ?_⟩
    exact s.mayGrow_self _

theorem visit_iff_of_not_defines (hd : s.grammar.defines site.symbol = false) :
    visit s choose levels site
        ⟨.ofNodes (nodes ++ [⟨site.symbol, s.stateOf site.symbol⟩]), source⟩ =
          some (.ok (), after) ↔
      ∃ d, Grows s choose levels source nodes site after d := by
  rw [visit, hd, exists_grows_iff_of_not_defines hd]
  simp [Run.pure_apply, Setting.stateOf, hd, eq_comm]

/-- A visit goes as many levels deep as the derivation that grows is high. -/
theorem visits_visit (hobeys : choose.Obeys s) (levels : Nat) :
    Visits s choose levels (visit s choose levels) := by
  induction levels with
  | zero =>
      intro nodes source site after hid
      cases hd : s.grammar.defines site.symbol with
      | false => exact visit_iff_of_not_defines hd
      | true =>
          refine iff_of_false (by simp [visit, hd, expand, Run.endless_apply]) ?_
          intro h
          obtain ⟨d, hroot, hadmits, hheight, -⟩ := h
          exact absurd (hadmits.height_pos (by rw [hroot, hd])) (by omega)
  | succ levels ih =>
      intro nodes source site after hid
      cases hd : s.grammar.defines site.symbol with
      | false => exact visit_iff_of_not_defines hd
      | true =>
          rw [visit, if_pos hd, ← expand_succ_iff hobeys ih hid hd, Setting.stateOf, if_pos hd]

end GrammarSampler.DepthFirst

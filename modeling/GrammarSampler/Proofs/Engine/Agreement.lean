import GrammarSampler.Proofs.Engine.Replay

/-!
# Agreement of the orders

If the rule of every node is fixed by its position, both orders derive the same tree or both fail:
they meet the nodes of the same derivation, and its size decides whether it fits.
-/

namespace GrammarSampler

/-! ## Rules fixed by positions -/

/-- Chooses the rule that is assigned to a position, the child indices on the way down to it. Where
that rule may not be chosen, no choice is made. -/
def Chooser.tied (assign : List Nat → Nat) : Chooser Unit := fun site options _ =>
  if options.Allows (assign site.path.reverse) then some (assign site.path.reverse, ()) else none

namespace Setting

variable {s : Setting} {assign : List Nat → Nat} {start : String}

/-- Whether the assigned rules lead from `start` to a symbol at a position. -/
inductive Reaches (s : Setting) (assign : List Nat → Nat) (start : String) :
    List Nat → String → Prop
  | root : Reaches s assign start [] start
  | child {path : List Nat} {symbol token : String} {index : Nat}
      (hparent : Reaches s assign start path symbol)
      (htoken : (s.tokens symbol (assign path))[index]? = some token) :
      Reaches s assign start (path ++ [index]) token

/-- Whether the assigned rule may be chosen at every position that is reached and has such rules. -/
def Assigns (s : Setting) (assign : List Nat → Nat) (start : String) : Prop :=
  ∀ path symbol options, s.Reaches assign start path symbol →
    s.options symbol path.length = .ok options → options.Allows (assign path)

theorem obeys_tied (s : Setting) (assign : List Nat → Nat) : (Chooser.tied assign).Obeys s := by
  intro site options source rule after _ hchoose
  by_cases h : options.Allows (assign site.path.reverse)
  · rw [Chooser.tied, if_pos h] at hchoose
    cases hchoose
    exact h
  · rw [Chooser.tied, if_neg h] at hchoose
    cases hchoose

theorem tied_eq_some_iff {site : Site} {options : Options} {rule : Nat}
    (hrule : options.Allows rule) {source after : Unit} :
    Chooser.tied assign site options source = some (rule, after) ↔
      assign site.path.reverse = rule := by
  apply Iff.intro
  · intro h
    by_cases ha : options.Allows (assign site.path.reverse)
    · rw [Chooser.tied, if_pos ha] at h
      cases h
      rfl
    · rw [Chooser.tied, if_neg ha] at h
      cases h
  · intro h
    subst h
    exact if_pos hrule

theorem tame_tied {g : Grammar} {maxDepth : Nat} {nodeLimit : Option Nat}
    (h : (own g maxDepth nodeLimit).Assigns assign start) {levels : Nat} {site : Site}
    (hreached : (own g maxDepth nodeLimit).Reaches assign start site.path.reverse site.symbol)
    (hdepth : site.path.length = site.depth)
    (hrank : ownRank g maxDepth site.depth site.symbol < levels) :
    (own g maxDepth nodeLimit).Tame (.tied assign) levels site := by
  induction levels generalizing site with
  | zero => exact absurd hrank (Nat.not_lt_zero _)
  | succ levels ih =>
      intro options source ho
      have hrule : options.Allows (assign site.path.reverse) := by
        refine h _ _ options hreached ?_
        rwa [List.length_reverse, hdepth]
      refine ⟨_, (), (tied_eq_some_iff hrule).2 rfl, fun child hc hd => ?_⟩
      obtain ⟨place, token, id, htoken, rfl⟩ := hc
      have hdown := ranks_own g maxDepth nodeLimit _ _ options _ ho hrule token
        (List.mem_of_getElem? htoken) hd
      refine ih ?_ (by rw [Site.child, List.length_cons, hdepth]) ?_
      · rw [Site.child, List.reverse_cons, Nat.zero_add]
        exact .child hreached htoken
      · exact Nat.lt_of_lt_of_le hdown (Nat.le_of_lt_succ hrank)

end Setting

/-! ## Derivations fixed by positions -/

namespace Derivation

mutual

/-- Whether a derivation whose root is at `path`, upwards, uses the assigned rules. -/
def TiedAt (assign : List Nat → Nat) (path : List Nat) : Derivation → Prop
  | .leaf _ | .pending _ => True
  | .node _ rule children => assign path.reverse = rule ∧ TiedAll assign path 0 children

def TiedAll (assign : List Nat → Nat) (path : List Nat) (index : Nat) : List Derivation → Prop
  | [] => True
  | d :: ds => TiedAt assign (index :: path) d ∧ TiedAll assign path (index + 1) ds

end

end Derivation

def Tied (assign : List Nat → Nat) (entry : Site × Node) : Prop :=
  ∀ rule ids, entry.2.state = .expanded rule ids → assign entry.1.path.reverse = rule

theorem tied_of_state {assign : List Nat → Nat} {entry : Site × Node}
    (h : entry.2.state = .leaf ∨ entry.2.state = .pending) : Tied assign entry := by
  intro rule ids hstate
  rw [hstate] at h
  obtain h | h := h <;> cases h

theorem tied_expanded_iff {assign : List Nat → Nat} {site : Site} {symbol : String} {rule : Nat}
    {ids : List Nat} :
    Tied assign (site, ⟨symbol, .expanded rule ids⟩) ↔ assign site.path.reverse = rule := by
  apply Iff.intro
  · exact fun h => h rule ids rfl
  · intro h rule ids hstate
    cases hstate
    exact h

variable {assign : List Nat → Nat}

namespace DepthFirst

mutual

theorem tied_lay_iff : (site : Site) → (d : Derivation) →
    ((∀ entry ∈ lay site d, Tied assign entry) ↔ d.TiedAt assign site.path)
  | _, .leaf _ => iff_of_true (List.forall_mem_singleton.2 (tied_of_state (.inl rfl))) trivial
  | _, .pending _ => iff_of_true (List.forall_mem_singleton.2 (tied_of_state (.inr rfl))) trivial
  | site, .node _ _ children => by
      rw [lay, List.forall_mem_cons, tied_expanded_iff,
        tied_layAll_iff site 0 (site.id + 1) children]
      rfl

theorem tied_layAll_iff (parent : Site) : (index id : Nat) → (ds : List Derivation) →
    ((∀ entry ∈ layAll parent index id ds, Tied assign entry) ↔
      Derivation.TiedAll assign parent.path index ds)
  | _, _, [] => iff_of_true (List.forall_mem_nil _) trivial
  | index, id, d :: ds => by
      rw [layAll, List.forall_mem_append, tied_lay_iff (parent.child index d.root id) d,
        tied_layAll_iff parent (index + 1) (id + d.size) ds]
      rfl

end

end DepthFirst

namespace LevelOrder

theorem tied_adjacent_iff {parent : Site} {index id : Nat} {ds : List Derivation} :
    (∀ e ∈ adjacent parent index id ds, e.2.TiedAt assign e.1.path) ↔
      Derivation.TiedAll assign parent.path index ds := by
  induction ds generalizing index id with
  | nil => exact iff_of_true (List.forall_mem_nil _) trivial
  | cons d ds ih =>
      rw [adjacent, List.forall_mem_cons, ih]
      rfl

theorem tied_lay_iff {id : Nat} {queue : List (Site × Derivation)} :
    (∀ entry ∈ lay id queue, Tied assign entry) ↔ ∀ e ∈ queue, e.2.TiedAt assign e.1.path := by
  fun_induction lay id queue with
  | case1 => simp
  | case2 id site d queue ih =>
      rw [List.forall_mem_cons, ih, List.forall_mem_append, List.forall_mem_cons,
        tied_adjacent_iff]
      have hhead : (Tied assign (site, nodeAt id d) ∧
          Derivation.TiedAll assign site.path 0 d.children) ↔ d.TiedAt assign site.path := by
        cases d with
        | leaf => exact iff_of_true ⟨tied_of_state (.inl rfl), trivial⟩ trivial
        | pending => exact iff_of_true ⟨tied_of_state (.inr rfl), trivial⟩ trivial
        | node symbol rule ds => exact and_congr_left fun _ => tied_expanded_iff
      rw [← hhead, and_assoc, and_comm (b := Derivation.TiedAll _ _ _ _)]

end LevelOrder

theorem Strategy.tied_lay_iff (strategy : Strategy) (d : Derivation) :
    (∀ entry ∈ strategy.lay d, Tied assign entry) ↔ d.TiedAt assign [] := by
  cases strategy with
  | depthFirst => exact DepthFirst.tied_lay_iff _ d
  | levelOrder => exact LevelOrder.tied_lay_iff.trans List.forall_mem_singleton

/-! ## Runs -/

namespace Setting

variable {s : Setting} {start : String} {strategy : Strategy} {d : Derivation}

theorem choices_tied_iff {layout : List (Site × Node)} (h : ∀ entry ∈ layout, s.Suits entry)
    {source after : Unit} :
    s.Choices (.tied assign) source (picks layout) after ↔
      ∀ entry ∈ layout, Tied assign entry := by
  induction layout generalizing source with
  | nil => exact iff_of_true rfl (List.forall_mem_nil _)
  | cons entry layout ih =>
      obtain ⟨hentry, hmore⟩ := List.forall_mem_cons.1 h
      rw [List.forall_mem_cons, ← @ih hmore source]
      cases hentry with
      | leaf => exact (and_iff_right (tied_of_state (.inl rfl))).symm
      | expanded ho hrule =>
          rw [tied_expanded_iff]
          apply Iff.intro
          · intro hchoices
            obtain ⟨options, middle, hoptions, hchoose, hrest⟩ := hchoices
            cases ho.symm.trans hoptions
            exact ⟨(tied_eq_some_iff hrule).1 hchoose, hrest⟩
          · intro hboth
            exact ⟨_, (), ho, (tied_eq_some_iff hrule).2 hboth.1, hboth.2⟩

/-- Whether a derivation is the one that the assigned rules give, and has no more nodes than there
may be. -/
structure Assigned (s : Setting) (assign : List Nat → Nat) (start : String) (d : Derivation) :
    Prop where
  root : d.root = start
  admits : s.Admits 0 d
  tied : d.TiedAt assign []
  mayGrow : s.MayGrow 1 d.size

theorem yields_tied_iff {g : Grammar} {maxDepth : Nat} {nodeLimit : Option Nat}
    {after : Growth Unit} :
    (own g maxDepth nodeLimit).Yields strategy (.tied assign) start () after d ↔
      (own g maxDepth nodeLimit).Assigned assign start d ∧ after.tree = strategy.treeOf d := by
  apply Iff.intro
  · intro h
    obtain ⟨hroot, hadmits, hheight, hchoices, htree, hfits⟩ := h
    rw [choices_tied_iff (strategy.suits_of_mem_lay hadmits), strategy.tied_lay_iff] at hchoices
    exact ⟨⟨hroot, hadmits, hchoices, hfits⟩, htree⟩
  · intro h
    obtain ⟨⟨hroot, hadmits, htied, hfits⟩, htree⟩ := h
    refine ⟨hroot, hadmits, hadmits.height_le_levels, ?_, htree, hfits⟩
    rwa [choices_tied_iff (strategy.suits_of_mem_lay hadmits), strategy.tied_lay_iff]

end Setting

/-- The run of an order in which every node gets the rule that is assigned to its position. -/
def Strategy.runTied (strategy : Strategy) (g : Grammar) (maxDepth : Nat) (nodeLimit : Option Nat)
    (assign : List Nat → Nat) (start : String) : Option (Ending Unit) :=
  (strategy.setting g maxDepth nodeLimit).grow strategy (.tied assign) start ()

theorem Strategy.runTied_ne_none {g : Grammar} {maxDepth : Nat} {nodeLimit : Option Nat}
    {start : String} (h : (Setting.own g maxDepth nodeLimit).Assigns assign start)
    (strategy : Strategy) : strategy.runTied g maxDepth nodeLimit assign start ≠ none := by
  rw [runTied, strategy.setting_eq_own]
  refine Setting.grow_ne_none strategy () fun _ => ?_
  exact Setting.tame_tied h .root rfl (Setting.ownRank_root_lt_levels g maxDepth nodeLimit start)

theorem Strategy.runTied_eq_ok_iff {g : Grammar} {maxDepth : Nat} {nodeLimit : Option Nat}
    {start : String} {strategy : Strategy} {after : Growth Unit} :
    strategy.runTied g maxDepth nodeLimit assign start = some (.ok (), after) ↔
      ∃ d, (Setting.own g maxDepth nodeLimit).Yields strategy (.tied assign) start () after d := by
  rw [runTied, strategy.setting_eq_own]
  exact Setting.grow_eq_ok_iff (Setting.obeys_tied _ assign)

/-- Both orders derive trees of one shape, that of the derivation which the assigned rules give, or
there is no such derivation and both fail. -/
theorem orders_agree (g : Grammar) (maxDepth : Nat) (nodeLimit : Option Nat) (start : String)
    (assign : List Nat → Nat) (h : (Setting.own g maxDepth nodeLimit).Assigns assign start) :
    (∃ d first second, (Setting.own g maxDepth nodeLimit).Assigned assign start d ∧
      Strategy.levelOrder.runTied g maxDepth nodeLimit assign start = some (.ok (), first) ∧
      Strategy.depthFirst.runTied g maxDepth nodeLimit assign start = some (.ok (), second) ∧
      first.tree.HasShape d ∧ second.tree.HasShape d ∧ first.tree.text = second.tree.text ∧
      first.tree.size = second.tree.size ∧ first.tree.depth = second.tree.depth) ∨
    (¬ ∃ d, (Setting.own g maxDepth nodeLimit).Assigned assign start d) ∧
      ∃ fault other first second,
        Strategy.levelOrder.runTied g maxDepth nodeLimit assign start = some (.error fault, first) ∧
        Strategy.depthFirst.runTied g maxDepth nodeLimit assign start =
          some (.error other, second) := by
  -- neither order decides whether such a derivation exists
  by_cases hd : ∃ d, (Setting.own g maxDepth nodeLimit).Assigned assign start d
  · obtain ⟨d, hd⟩ := hd
    have hrun (strategy : Strategy) : strategy.runTied g maxDepth nodeLimit assign start =
        some (.ok (), ⟨strategy.treeOf d, ()⟩) :=
      Strategy.runTied_eq_ok_iff.2 ⟨d, Setting.yields_tied_iff.2 ⟨hd, rfl⟩⟩
    have hfirst := Strategy.levelOrder.hasShape_treeOf d
    have hsecond := Strategy.depthFirst.hasShape_treeOf d
    obtain ⟨htext, hdepth⟩ := Tree.text_eq_and_depth_eq hfirst.shows hsecond.shows hfirst.size
      hsecond.size
    exact .inl ⟨d, _, _, hd, hrun _, hrun _, hfirst, hsecond, htext,
      hfirst.size.trans hsecond.size.symm, hdepth⟩
  · have hfail (strategy : Strategy) : ∃ fault after,
        strategy.runTied g maxDepth nodeLimit assign start = some (.error fault, after) := by
      obtain ⟨⟨result, after⟩, hrun⟩ := Option.ne_none_iff_exists'.1 (strategy.runTied_ne_none h)
      cases result with
      | error fault => exact ⟨fault, after, hrun⟩
      | ok =>
          obtain ⟨d, hyields⟩ := Strategy.runTied_eq_ok_iff.1 hrun
          exact absurd ⟨d, (Setting.yields_tied_iff.1 hyields).1⟩ hd
    obtain ⟨fault, first, hfirst⟩ := hfail .levelOrder
    obtain ⟨other, second, hsecond⟩ := hfail .depthFirst
    exact .inr ⟨hd, fault, other, first, second, hfirst, hsecond⟩

def Grammar.nestedOnce (path : List Nat) : Nat := if path = [] then 1 else 0

theorem Grammar.assigns_nestedOnce :
    (Setting.own nested 0 (some 5)).Assigns nestedOnce "<s>" := by
  intro path symbol options _ ho
  obtain ⟨hr, hoptions⟩ := Setting.options_eq_ok_iff.1 ho
  obtain rfl := (rulesOf_nested symbol).resolve_left hr
  obtain ⟨hdepth, rfl⟩ | ⟨hdepth, -, rfl⟩ := hoptions
  · obtain rfl := List.length_eq_zero_iff.1 (Nat.le_zero.1 hdepth)
    decide
  · have hpath : nestedOnce path = 0 := if_neg (List.ne_nil_of_length_pos hdepth)
    rw [hpath]
    decide

theorem orders_agree_nested :
    ∃ d first second, (Setting.own .nested 0 (some 5)).Assigned Grammar.nestedOnce "<s>" d ∧
      Strategy.levelOrder.runTied .nested 0 (some 5) Grammar.nestedOnce "<s>" =
        some (.ok (), first) ∧
      Strategy.depthFirst.runTied .nested 0 (some 5) Grammar.nestedOnce "<s>" =
        some (.ok (), second) ∧
      first.tree.HasShape d ∧ second.tree.HasShape d ∧ first.tree.text = "(a)" ∧
      second.tree.text = "(a)" ∧ first.tree.size = 5 ∧ second.tree.size = 5 ∧
      first.tree.depth = second.tree.depth := by
  have hok : (Strategy.levelOrder.runTied .nested 0 (some 5) Grammar.nestedOnce "<s>").map
      (fun ending => (ending.1.isOk, ending.2.tree.text, ending.2.tree.size)) =
        some (true, "(a)", 5) := by
    decide +kernel
  cases orders_agree .nested 0 (some 5) "<s>" Grammar.nestedOnce Grammar.assigns_nestedOnce with
  | inl h =>
      obtain ⟨d, first, second, hd, hfirst, hsecond, hshape, hother, htext, hsize, hdepth⟩ := h
      rw [hfirst] at hok
      obtain ⟨htree, hcount⟩ : first.tree.text = "(a)" ∧ first.tree.size = 5 := by
        simpa [Except.isOk, Except.toBool] using hok
      exact ⟨d, first, second, hd, hfirst, hsecond, hshape, hother, htree, htext.symm.trans htree,
        hcount, hsize.symm.trans hcount, hdepth⟩
  | inr h =>
      obtain ⟨-, fault, other, first, second, hfirst, -⟩ := h
      rw [hfirst] at hok
      cases hok

end GrammarSampler

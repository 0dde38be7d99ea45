import GrammarSampler.Proofs.Engine.Ends
import GrammarSampler.Proofs.Engine.Entries
import GrammarSampler.Proofs.Engine.Valid

/-!
# Replay

The words that a derivation draws are the choices of its rules, and every derivation that the policy
admits can be drawn. So both orders derive the same trees, and differ in the order of the words.
-/

namespace GrammarSampler

variable {s : Setting}

/-- Whether a tree shows a derivation and has no other nodes. -/
structure Tree.HasShape (t : Tree) (d : Derivation) : Prop where
  shows : t.Shows 0 d
  size : t.size = d.size

theorem Strategy.hasShape_treeOf (strategy : Strategy) (d : Derivation) :
    (strategy.treeOf d).HasShape d :=
  ⟨strategy.shows_treeOf d, strategy.size_treeOf d⟩

namespace Source

/-! ## Drawn rules -/

/-- Whether the words that a source gives choose the rules of some nodes, one after the other. Down
to the budget a word of 64 bits chooses one of the rules, and past it a word of 32 bits a cheap
one. -/
inductive Replays (g : Grammar) (cheap : String → List Nat) (maxDepth : Nat) :
    Source → List (Nat × Node) → Source → Prop
  | done {source : Source} : Replays g cheap maxDepth source [] source
  | leaf {source after : Source} {depth : Nat} {symbol : String} {more : List (Nat × Node)}
      (hmore : Replays g cheap maxDepth source more after) :
      Replays g cheap maxDepth source ((depth, ⟨symbol, .leaf⟩) :: more) after
  | any {source middle after : Source} {depth rule : Nat} {symbol : String} {ids : List Nat}
      {more : List (Nat × Node)} (hdepth : depth ≤ maxDepth)
      (hdraw : Draws .w64 (g.rulesOf symbol).length source rule middle)
      (hmore : Replays g cheap maxDepth middle more after) :
      Replays g cheap maxDepth source ((depth, ⟨symbol, .expanded rule ids⟩) :: more) after
  | cheap {source middle after : Source} {depth place rule : Nat} {symbol : String}
      {ids : List Nat} {more : List (Nat × Node)} (hdepth : maxDepth < depth)
      (hdraw : Draws .w32 (cheap symbol).length source place middle)
      (hplace : (cheap symbol)[place]? = some rule)
      (hmore : Replays g cheap maxDepth middle more after) :
      Replays g cheap maxDepth source ((depth, ⟨symbol, .expanded rule ids⟩) :: more) after

theorem exists_draws_of_choose {site : Site} {indices : List Nat} {source after : Source}
    {rule : Nat} (hindices : indices ≠ []) (hfew : indices.length < 2 ^ 32)
    (h : choose site (.among indices) source = some (rule, after)) :
    ∃ place, Draws .w32 indices.length source place after ∧ indices[place]? = some rule := by
  rw [choose, Width.ofLength_of_lt hfew, Option.map_eq_some_iff] at h
  obtain ⟨⟨place, last⟩, hbelow, heq⟩ := h
  cases heq
  have hdraw := draws_of_below hbelow
  have hlt := hdraw.lt (List.length_pos_iff.2 hindices)
  refine ⟨place, hdraw, ?_⟩
  rw [List.getElem?_eq_getElem hlt]
  rfl

theorem replays_of_choices {layout : List (Site × Node)} {source after : Source}
    (hfew : ∀ symbol, (s.cheap symbol).length < 2 ^ 32)
    (hlayout : ∀ entry ∈ layout, s.Suits entry)
    (h : s.Choices choose source (picks layout) after) :
    Replays s.grammar s.cheap s.maxDepth source (layout.map sight) after := by
  induction layout generalizing source with
  | nil =>
      cases h
      exact .done
  | cons entry layout ih =>
      obtain ⟨hentry, hmore⟩ := List.forall_mem_cons.1 hlayout
      cases hentry with
      | leaf => exact .leaf (ih hmore h)
      | expanded ho hrule =>
          obtain ⟨options, middle, hoptions, hchoose, hrest⟩ := h
          obtain ⟨-, ⟨hdepth, rfl⟩ | ⟨hdepth, hcheap, rfl⟩⟩ := Setting.options_eq_ok_iff.1 hoptions
          · exact .any hdepth (draws_of_below hchoose) (ih hmore hrest)
          · obtain ⟨place, hdraw, hplace⟩ := exists_draws_of_choose hcheap (hfew _) hchoose
            exact .cheap hdepth hdraw hplace (ih hmore hrest)

/-! ## Scripts -/

theorem exists_choose_script {options : Options} {rule : Nat} (hrule : options.Allows rule)
    (hfew : options.count < 2 ^ 32) (site : Site) :
    ∃ word : UInt64, ∀ more drawn32 drawn64, ∃ after : Source, after.supply = .script more ∧
      choose site options ⟨.script (word :: more), drawn32, drawn64⟩ = some (rule, after) := by
  cases options with
  | any count => exact exists_below_script .w64 hrule (hfew.le.trans (by decide))
  | among indices =>
      obtain ⟨place, hlt, rfl⟩ := List.mem_iff_getElem.1 hrule
      obtain ⟨word, hword⟩ := exists_below_script .w32 hlt hfew.le
      refine ⟨word, fun more drawn32 drawn64 => ?_⟩
      obtain ⟨after, hafter, hbelow⟩ := hword more drawn32 drawn64
      have hlength : indices.length < 2 ^ 32 := hfew
      refine ⟨after, hafter, ?_⟩
      rw [choose, Width.ofLength_of_lt hlength, hbelow]
      simp [List.getElem?_eq_getElem hlt]

theorem exists_script {layout : List (Site × Node)} (hlayout : ∀ entry ∈ layout, s.Suits entry)
    (hfew : ∀ symbol depth options, s.options symbol depth = .ok options →
      options.count < 2 ^ 32) :
    ∃ words : List UInt64, ∀ drawn32 drawn64, ∃ after : Source, after.supply = .script [] ∧
      s.Choices choose ⟨.script words, drawn32, drawn64⟩ (picks layout) after := by
  induction layout with
  | nil => exact ⟨[], fun drawn32 drawn64 => ⟨⟨.script [], drawn32, drawn64⟩, rfl, rfl⟩⟩
  | cons entry layout ih =>
      obtain ⟨hentry, hmore⟩ := List.forall_mem_cons.1 hlayout
      obtain ⟨words, hwords⟩ := ih hmore
      cases hentry with
      | leaf => exact ⟨words, hwords⟩
      | @expanded site options rule ids ho hrule =>
          obtain ⟨word, hword⟩ := exists_choose_script hrule (hfew _ _ _ ho) site
          refine ⟨word :: words, fun drawn32 drawn64 => ?_⟩
          obtain ⟨⟨supply, drawn32, drawn64⟩, rfl, hchoose⟩ := hword words drawn32 drawn64
          obtain ⟨after, hafter, hchoices⟩ := hwords drawn32 drawn64
          exact ⟨after, hafter, options, _, ho, hchoose, hchoices⟩

end Source

/-! ## Both orders -/

variable {g : Grammar} {strategy : Strategy} {start : String} {maxDepth : Nat}

theorem Setting.count_options_own_lt (hfew : ∀ symbol, (g.rulesOf symbol).length < 2 ^ 32)
    {nodeLimit : Option Nat} {symbol : String} {depth : Nat} {options : Options}
    (ho : (own g maxDepth nodeLimit).options symbol depth = .ok options) :
    options.count < 2 ^ 32 := by
  obtain ⟨-, ⟨-, rfl⟩ | ⟨-, -, rfl⟩⟩ := options_eq_ok_iff.1 ho
  · exact hfew symbol
  · exact (CostTable.length_cheapRules_le g symbol).trans_lt (hfew symbol)

theorem Setting.fits_of_no_limit (h : s.nodeLimit = none) (size : Nat) : s.Fits size :=
  fits_iff.2 fun limit hlimit => by simp [h] at hlimit

/-- Every derivation that the policy admits is drawn by some script. -/
theorem exists_script_derives (hfew : ∀ symbol, (g.rulesOf symbol).length < 2 ^ 32)
    {d : Derivation} (hroot : d.root = start) (hcomplete : d.Complete g)
    (hthrifty : d.Thrifty (CostTable.ofGrammar g).cheapRules maxDepth 0) :
    ∃ words tree after,
      derive g (.ofGrammar g) strategy none start maxDepth (.ofScript words) =
        some (.ok tree, after) ∧ tree.HasShape d ∧ after.supply = .script [] := by
  have hadmits : (Setting.own g maxDepth none).Admits 0 d :=
    Setting.admits_own_iff.2 ⟨hcomplete, hthrifty⟩
  obtain ⟨words, hwords⟩ := Source.exists_script (strategy.suits_of_mem_lay hadmits)
    fun _ _ _ ho => Setting.count_options_own_lt hfew ho
  obtain ⟨after, hafter, hchoices⟩ := hwords 0 0
  refine ⟨words, strategy.treeOf d, after, derive_eq_ok_iff.2 ?_, strategy.hasShape_treeOf d,
    hafter⟩
  rw [strategy.setting_eq_own]
  refine (Setting.grow_eq_ok_iff (Source.obeys_choose _)).2
    ⟨d, hroot, hadmits, hadmits.height_le_levels, hchoices, rfl, ?_⟩
  exact fun _ => Setting.fits_of_no_limit rfl _

theorem exists_yields_of_derive {source after : Source} {tree : Tree} {nodeLimit : Option Nat}
    (h : derive g (.ofGrammar g) strategy nodeLimit start maxDepth source =
      some (.ok tree, after)) :
    ∃ d, (Setting.own g maxDepth nodeLimit).Yields strategy Source.choose start source
      ⟨tree, after⟩ d := by
  rw [derive_eq_ok_iff, strategy.setting_eq_own] at h
  exact (Setting.grow_eq_ok_iff (Source.obeys_choose _)).1 h

theorem exists_shape_of_derive {source after : Source} {tree : Tree} {nodeLimit : Option Nat}
    (h : derive g (.ofGrammar g) strategy nodeLimit start maxDepth source =
      some (.ok tree, after)) :
    ∃ d : Derivation, d.root = start ∧ d.Complete g ∧
      d.Thrifty (CostTable.ofGrammar g).cheapRules maxDepth 0 ∧ tree.HasShape d := by
  obtain ⟨d, hyields⟩ := exists_yields_of_derive h
  obtain ⟨hcomplete, hthrifty⟩ := Setting.admits_own_iff.1 hyields.admits
  obtain rfl : tree = strategy.treeOf d := hyields.tree
  exact ⟨d, hyields.root, hcomplete, hthrifty, strategy.hasShape_treeOf d⟩

theorem replays_of_derive (hfew : ∀ symbol, (g.rulesOf symbol).length < 2 ^ 32)
    {source after : Source} {tree : Tree} {nodeLimit : Option Nat}
    (h : derive g (.ofGrammar g) strategy nodeLimit start maxDepth source =
      some (.ok tree, after)) :
    source.Replays g (CostTable.ofGrammar g).cheapRules maxDepth (strategy.order tree) after := by
  have hcheap : ∀ symbol, ((CostTable.ofGrammar g).cheapRules symbol).length < 2 ^ 32 :=
    fun symbol => (CostTable.length_cheapRules_le g symbol).trans_lt (hfew symbol)
  obtain ⟨d, hyields⟩ := exists_yields_of_derive h
  obtain rfl : tree = strategy.treeOf d := hyields.tree
  rw [strategy.order_treeOf]
  exact Source.replays_of_choices hcheap (strategy.suits_of_mem_lay hyields.admits) hyields.choices

/-- The shapes of the trees that an order can give without a limit of nodes. -/
def Strategy.shapes (strategy : Strategy) (g : Grammar) (start : String) (maxDepth : Nat) :
    Set Derivation :=
  {d | ∃ source tree after, derive g (.ofGrammar g) strategy none start maxDepth source =
    some (.ok tree, after) ∧ tree.HasShape d}

theorem Strategy.mem_shapes_iff (hfew : ∀ symbol, (g.rulesOf symbol).length < 2 ^ 32)
    {d : Derivation} :
    d ∈ strategy.shapes g start maxDepth ↔ d.root = start ∧ d.Complete g ∧
      d.Thrifty (CostTable.ofGrammar g).cheapRules maxDepth 0 := by
  apply Iff.intro
  · intro h
    obtain ⟨source, tree, after, hderive, hshape⟩ := h
    obtain ⟨e, hroot, hcomplete, hthrifty, hother⟩ := exists_shape_of_derive hderive
    obtain rfl := hshape.shows.unique hother.shows
    exact ⟨hroot, hcomplete, hthrifty⟩
  · intro h
    obtain ⟨hroot, hcomplete, hthrifty⟩ := h
    obtain ⟨words, tree, after, hderive, hshape, -⟩ :=
      exists_script_derives hfew hroot hcomplete hthrifty
    exact ⟨_, tree, after, hderive, hshape⟩

/-- Scripts draw exactly the derivations that the policy admits, and what is drawn is exactly the
rules of the tree in its order. -/
theorem replay_complete (g : Grammar) (hfew : ∀ symbol, (g.rulesOf symbol).length < 2 ^ 32)
    (start : String) (maxDepth : Nat) :
    (∀ (strategy : Strategy) (d : Derivation), d.root = start → d.Complete g →
      d.Thrifty (CostTable.ofGrammar g).cheapRules maxDepth 0 →
        ∃ words tree after,
          derive g (.ofGrammar g) strategy none start maxDepth (.ofScript words) =
            some (.ok tree, after) ∧ tree.HasShape d ∧ after.supply = .script []) ∧
    (∀ (strategy : Strategy) source tree after,
      derive g (.ofGrammar g) strategy none start maxDepth source = some (.ok tree, after) →
        (∃ d : Derivation, d.root = start ∧ d.Complete g ∧
          d.Thrifty (CostTable.ofGrammar g).cheapRules maxDepth 0 ∧ tree.HasShape d) ∧
        source.Replays g (CostTable.ofGrammar g).cheapRules maxDepth (strategy.order tree) after) ∧
    Strategy.levelOrder.shapes g start maxDepth = Strategy.depthFirst.shapes g start maxDepth := by
  refine ⟨fun strategy d => exists_script_derives hfew, fun _ _ _ _ hderive =>
    ⟨exists_shape_of_derive hderive, replays_of_derive hfew hderive⟩, ?_⟩
  ext d
  rw [Strategy.mem_shapes_iff hfew, Strategy.mem_shapes_iff hfew]

def Derivation.nested : Derivation :=
  .node "<s>" 1 [.leaf "(", .node "<s>" 0 [.leaf "a"], .leaf ")"]

theorem Derivation.complete_nested : Complete .nested .nested := by
  have hinner : Complete .nested (.node "<s>" 0 [.leaf "a"]) :=
    .node rfl rfl (List.forall_mem_singleton.2 (.leaf rfl))
  refine .node rfl rfl (List.forall_mem_cons.2 ⟨.leaf rfl, List.forall_mem_cons.2 ⟨hinner, ?_⟩⟩)
  exact List.forall_mem_singleton.2 (.leaf rfl)

theorem Derivation.thrifty_nested :
    Derivation.nested.Thrifty (CostTable.ofGrammar .nested).cheapRules 0 0 := by
  have hcheap : 0 ∈ (CostTable.ofGrammar .nested).cheapRules "<s>" := by decide
  exact ⟨nofun, trivial, ⟨fun _ => hcheap, trivial, trivial⟩, trivial, trivial⟩

theorem Grammar.length_rulesOf_nested_lt (symbol : String) :
    (nested.rulesOf symbol).length < 2 ^ 32 := by
  rcases rulesOf_nested symbol with hnil | rfl
  · rw [hnil]
    decide
  · decide

theorem replay_complete_nested :
    (∃ words tree after,
      derive .nested (.ofGrammar .nested) .depthFirst none "<s>" 0 (.ofScript words) =
        some (.ok tree, after) ∧ tree.HasShape .nested ∧ after.supply = .script []) ∧
    (derive .nested (.ofGrammar .nested) .levelOrder none "<s>" 0
        (.ofScript [9223372036854775808]) = some (.ok .nested, ⟨.script [], 1, 1⟩) ∧
      (Source.ofScript [9223372036854775808]).Replays .nested
        (CostTable.ofGrammar .nested).cheapRules 0 Tree.nested.levelOrder ⟨.script [], 1, 1⟩) := by
  have hreplay := replay_complete .nested Grammar.length_rulesOf_nested_lt "<s>" 0
  have hderive : derive .nested (.ofGrammar .nested) .levelOrder none "<s>" 0
      (.ofScript [9223372036854775808]) = some (.ok .nested, ⟨.script [], 1, 1⟩) := by
    decide +kernel
  exact ⟨hreplay.1 .depthFirst .nested rfl Derivation.complete_nested Derivation.thrifty_nested,
    hderive, (hreplay.2.1 _ _ _ _ hderive).2⟩

end GrammarSampler

import GrammarSampler.Proofs.Engine.Correspondence
import GrammarSampler.Proofs.Engine.Expansions

/-!
# What costs and derivations do not depend on

Names of symbols and the order of rules and sweeps make no difference to costs, and neither do
symbols that a start does not lead to. Derivations follow the names, and no more than that.
-/

namespace GrammarSampler

open CostTable (ofGrammar)

/-! ## Names and orders -/

/-- The table that holds the given costs of symbols and what follows from them. -/
def CostTable.ofCosts (g : Grammar) (known : SymbolMap Cost) : CostTable :=
  ⟨g.rules.map fun symbol rules =>
    let costs := rules.map (Cost.ofRule known.get?)
    ⟨(known.get? symbol).getD .infinite, costs, Cost.cheapest costs⟩⟩

theorem CostTable.ofCosts_ofSymbols (g : Grammar) :
    ofCosts g (Cost.ofSymbols g) = ofGrammar g := rfl

/-- Costs and derivations follow a change of names, costs follow a change in the order of rules, and
it does not matter in which order each sweep visits the symbols. -/
theorem names_and_orders_irrelevant (g : Grammar) :
    (∀ r : String → String, Function.Injective r →
      (∀ symbol,
        (ofGrammar (g.rename r)).symbolCost (r symbol) = (ofGrammar g).symbolCost symbol ∧
        (ofGrammar (g.rename r)).ruleCosts (r symbol) = (ofGrammar g).ruleCosts symbol ∧
        (ofGrammar (g.rename r)).cheapRules (r symbol) = (ofGrammar g).cheapRules symbol) ∧
      ∀ (strategy : Strategy) (start : String) (maxDepth : Nat) (nodeLimit : Option Nat),
        (∀ source : Source,
          derive (g.rename r) (.ofGrammar (g.rename r)) strategy nodeLimit (r start) maxDepth
              source =
            (derive g (.ofGrammar g) strategy nodeLimit start maxDepth source).map
              (Prod.map (fun result => (result.mapError (Fault.rename r)).map (Tree.rename r))
                id)) ∧
        ∀ (σ : Type) (choose : Chooser σ) (source : σ),
          choose.Obeys (strategy.setting (g.rename r) maxDepth nodeLimit) →
          (strategy.setting (g.rename r) maxDepth nodeLimit).grow strategy choose (r start)
              source =
            ((strategy.setting g maxDepth nodeLimit).grow strategy (choose.renamed r) start
              source).map (Ending.rename r)) ∧
    (∀ order : String → List Nat, g.Permutes order → ∀ symbol,
      (ofGrammar (g.reorder order)).symbolCost symbol = (ofGrammar g).symbolCost symbol ∧
      (ofGrammar (g.reorder order)).ruleCosts symbol =
        Grammar.picked (order symbol) ((ofGrammar g).ruleCosts symbol)) ∧
    ∀ order : Nat → List (String × List Rule), Cost.Visits g order →
      (∃ sweeps known, Cost.Loops order 0 (Cost.initial g) sweeps known) ∧
      ∀ sweeps known, Cost.Loops order 0 (Cost.initial g) sweeps known →
        CostTable.ofCosts g known = ofGrammar g := by
  refine ⟨fun r hr => ?_, fun order horder symbol => ?_, fun order horder => ⟨?_, ?_⟩⟩
  · have h := Grammar.corresponds_rename hr g
    refine ⟨fun symbol => ?_, fun strategy start maxDepth nodeLimit => ⟨fun source => ?_, ?_⟩⟩
    · exact ⟨CostTable.symbolCost_eq_of_corresponds h trivial,
        CostTable.ruleCosts_eq_of_corresponds h trivial,
        CostTable.cheapRules_eq_of_corresponds h trivial⟩
    · exact h.derive_eq trivial strategy nodeLimit maxDepth source
    · exact fun σ choose source hobeys => h.grow_eq trivial hobeys source
  · exact ⟨CostTable.symbolCost_reorder horder symbol, CostTable.ruleCosts_reorder horder symbol⟩
  · obtain ⟨sweeps, -, hloops⟩ := Cost.exists_loops horder
    exact ⟨sweeps, _, hloops⟩
  · intro sweeps known hloops
    rw [hloops.eq_ofSymbols horder, CostTable.ofCosts_ofSymbols]

/-- Names that exchange the first symbol of a grammar with the last. -/
def exchanged : String → String := Equiv.swap "<a>" "<d>"

theorem names_and_orders_irrelevant_detour :
    (Function.Injective exchanged ∧
      (ofGrammar (Cost.detour.rename exchanged)).ruleCosts "<c>" = [.finite 3, .finite 2] ∧
      derive (Cost.detour.rename exchanged) (.ofGrammar (Cost.detour.rename exchanged)) .levelOrder
          none "<c>" 0 (.ofScript [9223372036854775808]) =
        some (.ok ⟨#[⟨"<c>", .expanded 1 [1]⟩, ⟨"<a>", .expanded 0 [2]⟩, ⟨"y", .leaf⟩]⟩,
          ⟨.script [], 1, 1⟩) ∧
      derive (Grammar.doubling.rename exchanged) (.ofGrammar (Grammar.doubling.rename exchanged))
          .levelOrder none "<d>" 1 (.ofScript []) =
        some (.error (.unproductive "<d>"), ⟨.script [], 0, 3⟩) ∧
      Source.choose.Obeys (Strategy.depthFirst.setting (Cost.detour.rename exchanged) 0 none) ∧
      ∃ after, (Strategy.depthFirst.setting (Cost.detour.rename exchanged) 0 none).grow .depthFirst
          Source.choose "<d>" (.ofScript []) = some (.ok (), after) ∧
        after.tree = ⟨#[⟨"<d>", .expanded 0 [1]⟩, ⟨"x", .leaf⟩]⟩) ∧
    (Cost.detour.Permutes (fun symbol => if symbol = "<c>" then [1, 0] else [0]) ∧
      (ofGrammar (Cost.detour.reorder fun symbol =>
        if symbol = "<c>" then [1, 0] else [0])).ruleCosts "<c>" = [.finite 2, .finite 3]) ∧
    Cost.Visits Cost.detour (fun _ => Cost.detour.rules.entries.reverse) ∧
      ∃ sweeps known, Cost.Loops (fun _ => Cost.detour.rules.entries.reverse) 0
        (Cost.initial Cost.detour) sweeps known ∧
          CostTable.ofCosts Cost.detour known = ofGrammar Cost.detour := by
  have hinjective : Function.Injective exchanged := Equiv.injective _
  have hpermutes : Cost.detour.Permutes (fun symbol => if symbol = "<c>" then [1, 0] else [0]) := by
    intro symbol hdefines
    rw [← Grammar.mem_symbols_iff] at hdefines
    revert symbol
    decide
  have hvisits : Cost.Visits Cost.detour (fun _ => Cost.detour.rules.entries.reverse) := fun _ =>
    List.reverse_perm _
  have hobeys := Source.obeys_choose
    (Strategy.depthFirst.setting (Cost.detour.rename exchanged) 0 none)
  have hgrow : ∃ after, (Strategy.depthFirst.setting Cost.detour 0 none).grow .depthFirst
      (Source.choose.renamed exchanged) "<a>" (.ofScript []) = some (.ok (), after) ∧
        after.tree = ⟨#[⟨"<a>", .expanded 0 [1]⟩, ⟨"x", .leaf⟩]⟩ :=
    ⟨_, by rfl, rfl⟩
  obtain ⟨hnames, hrules, hsweeps⟩ := names_and_orders_irrelevant Cost.detour
  obtain ⟨hcosts, hruns⟩ := hnames _ hinjective
  obtain ⟨-, hstuck⟩ := (names_and_orders_irrelevant Grammar.doubling).1 _ hinjective
  obtain ⟨⟨sweeps, known, hloops⟩, hsame⟩ := hsweeps _ hvisits
  refine ⟨⟨hinjective, ?_, ?_, ?_, hobeys, ?_⟩, ⟨hpermutes, ?_⟩, hvisits, sweeps, known, hloops,
    hsame sweeps known hloops⟩
  · exact (hcosts "<c>").2.1.trans (by decide)
  · exact ((hruns .levelOrder "<c>" 0 none).1 _).trans (by decide +kernel)
  · exact ((hstuck .levelOrder "<a>" 1 none).1 _).trans (by decide +kernel)
  · obtain ⟨after, hafter, htree⟩ := hgrow
    refine ⟨after.rename exchanged, ?_, ?_⟩
    · refine ((hruns .depthFirst "<a>" 0 none).2 Source Source.choose _ hobeys).trans ?_
      rw [hafter]
      rfl
    · exact (congrArg (Tree.rename exchanged) htree).trans (by decide +kernel)
  · exact (hrules _ hpermutes "<c>").2.trans (by decide)

/-! ## What a start leads to -/

/-- Names are kept here, but the numbers of levels that are tried may differ. -/
theorem Grammar.grow_eq_of_agree {σ : Type} {g₁ g₂ : Grammar} {start : String}
    {strategy : Strategy} {maxDepth : Nat} {nodeLimit : Option Nat} {choose : Chooser σ}
    (hagree : ∀ symbol, g₁.Reaches start symbol → g₁.rules.get? symbol = g₂.rules.get? symbol)
    (hobeys : choose.Obeys (strategy.setting g₂ maxDepth nodeLimit)) (source : σ) :
    (strategy.setting g₁ maxDepth nodeLimit).grow strategy choose start source =
      (strategy.setting g₂ maxDepth nodeLimit).grow strategy choose start source := by
  have hgrow := (corresponds_of_agree hagree).grow_eq .refl hobeys source
  have hid : (Ending.rename id : Ending σ → Ending σ) = id := funext Ending.rename_id
  rw [hid, Option.map_id_fun, id_eq] at hgrow
  exact hgrow.symm

/-- Grammars that agree on all that a start leads to have the same costs there, and from the start
they derive the same. -/
theorem reachable_part_decides {g₁ g₂ : Grammar} {start : String}
    (hagree : ∀ symbol, g₁.Reaches start symbol → g₁.rules.get? symbol = g₂.rules.get? symbol) :
    (∀ symbol, g₁.Reaches start symbol →
      (ofGrammar g₁).symbolCost symbol = (ofGrammar g₂).symbolCost symbol ∧
      (ofGrammar g₁).ruleCosts symbol = (ofGrammar g₂).ruleCosts symbol ∧
      (ofGrammar g₁).cheapRules symbol = (ofGrammar g₂).cheapRules symbol) ∧
    ∀ (strategy : Strategy) (maxDepth : Nat) (nodeLimit : Option Nat),
      (∀ source : Source,
        derive g₁ (.ofGrammar g₁) strategy nodeLimit start maxDepth source =
          derive g₂ (.ofGrammar g₂) strategy nodeLimit start maxDepth source) ∧
      ∀ (σ : Type) (choose : Chooser σ) (source : σ),
        choose.Obeys (strategy.setting g₂ maxDepth nodeLimit) →
        (strategy.setting g₁ maxDepth nodeLimit).grow strategy choose start source =
          (strategy.setting g₂ maxDepth nodeLimit).grow strategy choose start source := by
  have h := Grammar.corresponds_of_agree hagree
  refine ⟨fun symbol hreach => ⟨?_, ?_, ?_⟩, fun strategy maxDepth nodeLimit => ⟨?_, ?_⟩⟩
  · exact (CostTable.symbolCost_eq_of_corresponds h hreach).symm
  · exact (CostTable.ruleCosts_eq_of_corresponds h hreach).symm
  · exact (CostTable.cheapRules_eq_of_corresponds h hreach).symm
  · intro source
    rw [derive_eq_map, derive_eq_map, Grammar.grow_eq_of_agree hagree (Source.obeys_choose _)]
  · exact fun σ choose source hobeys => Grammar.grow_eq_of_agree hagree hobeys source

/-- A grammar that shares with `Cost.detour` no more than what `<b>` leads to. -/
def Cost.byway : Grammar :=
  ⟨⟨[("<a>", [⟨["x"]⟩]), ("<b>", [⟨["<a>"]⟩]), ("<e>", [⟨["<e>", "<b>"]⟩])], by decide⟩⟩

def Tree.byway : Tree :=
  ⟨#[⟨"<b>", .expanded 0 [1]⟩, ⟨"<a>", .expanded 0 [2]⟩, ⟨"x", .leaf⟩]⟩

theorem reachable_part_decides_byway :
    (∀ symbol, Cost.detour.Reaches "<b>" symbol →
      Cost.detour.rules.get? symbol = Cost.byway.rules.get? symbol) ∧
    Cost.detour.Reaches "<b>" "<a>" ∧
    ((ofGrammar Cost.detour).symbolCost "<b>" = (ofGrammar Cost.byway).symbolCost "<b>" ∧
      (ofGrammar Cost.byway).symbolCost "<b>" = .finite 2 ∧
      (ofGrammar Cost.byway).ruleCosts "<a>" = [.finite 1] ∧
      (ofGrammar Cost.byway).cheapRules "<a>" = [0]) ∧
    (derive Cost.detour (.ofGrammar Cost.detour) .depthFirst (some 3) "<b>" 0 (.ofScript [7]) =
        derive Cost.byway (.ofGrammar Cost.byway) .depthFirst (some 3) "<b>" 0 (.ofScript [7]) ∧
      derive Cost.byway (.ofGrammar Cost.byway) .depthFirst (some 3) "<b>" 0 (.ofScript [7]) =
        some (.ok .byway, ⟨.script [], 1, 1⟩) ∧
      derive Cost.byway (.ofGrammar Cost.byway) .depthFirst (some 2) "<b>" 0 (.ofScript [7, 8, 9]) =
        some (.error (.nodeLimit 2), ⟨.script [9], 1, 1⟩)) ∧
    Source.choose.Obeys (Strategy.levelOrder.setting Cost.byway 0 none) ∧
    (Strategy.levelOrder.setting Cost.detour 0 none).grow .levelOrder Source.choose "<b>"
        (.ofScript [7]) =
      (Strategy.levelOrder.setting Cost.byway 0 none).grow .levelOrder Source.choose "<b>"
        (.ofScript [7]) ∧
    (Strategy.levelOrder.setting Cost.detour 0 none).grow .levelOrder Source.choose "<b>"
        (.ofScript [7]) = some (.ok (), ⟨.byway, ⟨.script [], 1, 1⟩⟩) := by
  have hreach : ∀ symbol, Cost.detour.Reaches "<b>" symbol → symbol ∈ ["<a>", "<b>", "x"] :=
    fun symbol => Grammar.Reaches.of_closed (by decide) (by decide)
  have hagree : ∀ symbol, Cost.detour.Reaches "<b>" symbol →
      Cost.detour.rules.get? symbol = Cost.byway.rules.get? symbol := by
    have hlisted : ∀ symbol ∈ ["<a>", "<b>", "x"],
        Cost.detour.rules.get? symbol = Cost.byway.rules.get? symbol := by decide
    exact fun symbol h => hlisted symbol (hreach symbol h)
  have hrule : ⟨["<a>"]⟩ ∈ Cost.detour.rulesOf "<b>" := by decide
  have hchild : Cost.detour.Reaches "<b>" "<a>" := .step .refl hrule (by decide)
  have hobeys := Source.obeys_choose (Strategy.levelOrder.setting Cost.byway 0 none)
  have hgrow : (Strategy.levelOrder.setting Cost.byway 0 none).grow .levelOrder Source.choose "<b>"
      (.ofScript [7]) = some (.ok (), ⟨.byway, ⟨.script [], 1, 1⟩⟩) := by rfl
  obtain ⟨hcosts, hruns⟩ := reachable_part_decides hagree
  obtain ⟨hsymbol, -, -⟩ := hcosts "<b>" .refl
  obtain ⟨-, hrules, hcheap⟩ := hcosts "<a>" hchild
  have hderive := (hruns .depthFirst 0 (some 3)).1 (.ofScript [7])
  have hstop := (hruns .depthFirst 0 (some 2)).1 (.ofScript [7, 8, 9])
  have hlevels := (hruns .levelOrder 0 none).2 Source Source.choose (.ofScript [7]) hobeys
  refine ⟨hagree, hchild, ⟨hsymbol, ?_, ?_, ?_⟩, ⟨hderive, ?_, ?_⟩, hobeys, hlevels, ?_⟩
  · exact hsymbol.symm.trans (by decide)
  · exact hrules.symm.trans (by decide)
  · exact hcheap.symm.trans (by decide)
  · exact hderive.symm.trans (by decide +kernel)
  · exact hstop.symm.trans (by decide +kernel)
  · exact hlevels.trans hgrow

end GrammarSampler

import GrammarSampler.Proofs.Engine.Bounded

/-!
# The number of expansions

With the costs of its own grammar a derivation ends after a bounded number of expansions, whatever
is chosen. Down to the budget the depth is bounded, and past it costs go down with every level.
-/

namespace GrammarSampler

/-! ## The longest rule -/

namespace Grammar

def width (g : Grammar) : Nat := g.rules.values.flatten.toFinset.sup (·.tokens.length)

theorem length_tokens_le {g : Grammar} {symbol : String} {rule : Rule}
    (h : rule ∈ g.rulesOf symbol) : rule.tokens.length ≤ g.width := by
  have hmem : rule ∈ g.rules.values.flatten := by
    rw [rulesOf] at h
    cases hr : g.rules.get? symbol with
    | none => simp [hr] at h
    | some rules =>
        rw [hr, Option.getD_some] at h
        have hentry := SymbolMap.mem_entries_iff.2 hr
        exact List.mem_flatten.2 ⟨rules, List.mem_map_of_mem hentry, h⟩
  exact Finset.le_sup (f := (·.tokens.length)) (List.mem_toFinset.2 hmem)

/-- As many expansions as fit into the levels down to the budget and as many levels more as there
are symbols. -/
def mostExpansions (g : Grammar) (maxDepth : Nat) : Nat :=
  mostWithin g.width (maxDepth + g.size + 2)

end Grammar

theorem Setting.length_tokens_le (s : Setting) (symbol : String) (index : Nat) :
    (s.tokens symbol index).length ≤ s.grammar.width := by
  cases hr : (s.grammar.rulesOf symbol)[index]? with
  | none => simp [tokens, hr]
  | some rule =>
      rw [tokens_eq hr]
      exact Grammar.length_tokens_le (List.mem_of_getElem? hr)

theorem Setting.narrow_own (g : Grammar) (maxDepth : Nat) (nodeLimit : Option Nat) :
    (own g maxDepth nodeLimit).Narrow (ownRank g maxDepth) g.width :=
  ⟨ranks_own g maxDepth nodeLimit, (own g maxDepth nodeLimit).length_tokens_le⟩

/-! ## Runs -/

variable {σ : Type} {g : Grammar} {maxDepth : Nat} {nodeLimit : Option Nat} {strategy : Strategy}
  {choose : Chooser σ} {start : String} {source : σ}

theorem Setting.exists_counted {s : Setting} {result : Except Failure Unit} {after : Growth σ}
    (h : s.grow strategy choose start source = some (result, after)) :
    ∃ count, s.grow strategy choose.counted start (source, 0) =
      some (result, ⟨after.tree, after.source, count⟩) := by
  rw [← map_grow (choose.over_counted s) strategy start (source, 0), Option.map_eq_some_iff] at h
  obtain ⟨⟨_, tree, last, count⟩, hgrow, heq⟩ := h
  cases heq
  exact ⟨count, hgrow⟩

theorem Setting.own_bounded (hobeys : choose.Obeys (own g maxDepth nodeLimit))
    {result : Except Failure Unit} {after : Growth σ}
    (h : (own g maxDepth nodeLimit).grow strategy choose start source = some (result, after)) :
    (∃ count ≤ g.mostExpansions maxDepth,
      (own g maxDepth nodeLimit).grow strategy choose.counted start (source, 0) =
        some (result, ⟨after.tree, after.source, count⟩)) ∧
      ∀ failure, result = .error failure → (own g maxDepth nodeLimit).Stops start failure := by
  obtain ⟨count, hcounted⟩ := exists_counted h
  obtain ⟨hcount, hstops⟩ := bounded_grow hobeys (narrow_own g maxDepth nodeLimit) hcounted
  rw [ownRank_of_le (Nat.zero_le _), Nat.sub_zero, Nat.zero_add] at hcount
  exact ⟨⟨count, hcount, hcounted⟩, hstops⟩

theorem derive_eq_some_iff {source after : Source} {result : Except Fault Tree} :
    derive g (.ofGrammar g) strategy nodeLimit start maxDepth source = some (result, after) ↔
      ∃ ending tree, (strategy.setting g maxDepth nodeLimit).grow strategy Source.choose start
          source = some (ending, ⟨tree, after⟩) ∧
        result = match ending with
          | .ok () => .ok tree
          | .error failure => .error failure.fault := by
  rw [derive, Option.map_eq_some_iff]
  constructor
  · intro h
    obtain ⟨⟨ending, tree, last⟩, hgrow, heq⟩ := h
    cases ending <;> cases heq <;> exact ⟨_, tree, hgrow, rfl⟩
  · intro h
    obtain ⟨ending, tree, hgrow, rfl⟩ := h
    refine ⟨_, hgrow, ?_⟩
    cases ending <;> rfl

/-- A derivation from choices that are made ends, and leaves a source from which they still are. -/
theorem exists_derive_answers {source : Source}
    (h : Source.choose.Answers (strategy.setting g maxDepth nodeLimit) source) :
    ∃ result after,
      derive g (.ofGrammar g) strategy nodeLimit start maxDepth source = some (result, after) ∧
        Source.choose.Answers (strategy.setting g maxDepth nodeLimit) after := by
  rw [strategy.setting_eq_own] at h
  obtain ⟨ending, ⟨tree, after⟩, hgrow, hafter⟩ :=
    Setting.exists_grow_answers (Source.obeys_choose _) h
  rw [← strategy.setting_eq_own] at hgrow hafter
  exact ⟨_, after, derive_eq_some_iff.2 ⟨ending, tree, hgrow, rfl⟩, hafter⟩

/-- Every derivation with own costs ends, with a tree or a fault, after a number of expansions that
is bounded by the grammar and the depth budget alone. -/
theorem expansions_bounded (g : Grammar) (start : String) (maxDepth : Nat) (nodeLimit : Option Nat)
    (strategy : Strategy) :
    (∀ (σ : Type) (choose : Chooser σ) (source : σ),
      choose.Obeys (strategy.setting g maxDepth nodeLimit) →
        (choose.Answers (strategy.setting g maxDepth nodeLimit) source → ∃ result after,
          (strategy.setting g maxDepth nodeLimit).grow strategy choose start source =
            some (result, after)) ∧
        ∀ result after, (strategy.setting g maxDepth nodeLimit).grow strategy choose start source =
            some (result, after) →
          ∃ count ≤ g.mostExpansions maxDepth,
            (strategy.setting g maxDepth nodeLimit).grow strategy choose.counted start (source, 0) =
              some (result, ⟨after.tree, after.source, count⟩)) ∧
    ∀ source : Source,
      (source.Fair → ∃ result after,
        derive g (.ofGrammar g) strategy nodeLimit start maxDepth source = some (result, after)) ∧
      ∀ result after, derive g (.ofGrammar g) strategy nodeLimit start maxDepth source =
          some (result, after) →
        ∃ count ≤ g.mostExpansions maxDepth, ∃ ending tree,
          (strategy.setting g maxDepth nodeLimit).grow strategy Source.choose.counted start
            (source, 0) = some (ending, ⟨tree, after, count⟩) := by
  rw [strategy.setting_eq_own]
  have hsource := Source.obeys_choose (.own g maxDepth nodeLimit)
  constructor
  · intro σ choose source hobeys
    exact ⟨Setting.exists_grow_own hobeys, fun _ _ h => (Setting.own_bounded hobeys h).1⟩
  · intro source
    constructor
    · intro hfair
      obtain ⟨ending, ⟨tree, after⟩, hgrow⟩ :=
        Setting.exists_grow_own hsource (Source.answers_choose hfair _)
      rw [← strategy.setting_eq_own] at hgrow
      exact ⟨_, after, derive_eq_some_iff.2 ⟨ending, tree, hgrow, rfl⟩⟩
    · intro result after h
      obtain ⟨ending, tree, hgrow, -⟩ := derive_eq_some_iff.1 h
      rw [strategy.setting_eq_own] at hgrow
      obtain ⟨⟨count, hcount, hcounted⟩, -⟩ := Setting.own_bounded hsource hgrow
      exact ⟨count, hcount, ending, tree, hcounted⟩

/-- A symbol that only ever turns into two of its kind. -/
def Grammar.doubling : Grammar :=
  ⟨⟨[("<a>", [⟨["<a>", "<a>"]⟩])], List.pairwise_singleton _ _⟩⟩

theorem expansions_bounded_doubling :
    (Source.choose.Obeys (Strategy.levelOrder.setting .doubling 1 none) ∧
      Source.choose.Answers (Strategy.levelOrder.setting .doubling 1 none) (.ofScript []) ∧
      ∃ result tree source, ∃ count ≤ 15,
        (Strategy.levelOrder.setting .doubling 1 none).grow .levelOrder Source.choose.counted "<a>"
          (.ofScript [], 0) = some (result, ⟨tree, source, count⟩)) ∧
    Source.Fair (.ofScript []) ∧ ∃ after,
      derive .doubling (.ofGrammar .doubling) .levelOrder none "<a>" 1 (.ofScript []) =
        some (.error (.unproductive "<a>"), after) ∧
      ∃ count ≤ 15, ∃ ending tree,
        (Strategy.levelOrder.setting .doubling 1 none).grow .levelOrder Source.choose.counted "<a>"
          (.ofScript [], 0) = some (ending, ⟨tree, after, count⟩) := by
  obtain ⟨hchoose, hdraw⟩ := expansions_bounded .doubling "<a>" 1 none .levelOrder
  have hmost : Grammar.doubling.mostExpansions 1 = 15 := by decide
  have hobeys := Source.obeys_choose (Strategy.levelOrder.setting .doubling 1 none)
  have hfair : Source.Fair (.ofScript []) := Source.fair_of_script rfl
  have hanswers := Source.answers_choose hfair (Strategy.levelOrder.setting .doubling 1 none)
  have hderive : derive .doubling (.ofGrammar .doubling) .levelOrder none "<a>" 1 (.ofScript []) =
      some (.error (.unproductive "<a>"), ⟨.script [], 0, 3⟩) := by
    decide +kernel
  obtain ⟨hends, hbounded⟩ := hchoose Source Source.choose (.ofScript []) hobeys
  obtain ⟨result, after, hgrow⟩ := hends hanswers
  rw [← hmost]
  exact ⟨⟨hobeys, hanswers, result, after.tree, after.source, hbounded result after hgrow⟩, hfair,
    _, hderive, (hdraw (.ofScript [])).2 _ _ hderive⟩

end GrammarSampler

import GrammarSampler.Proofs.Engine.Heights
import GrammarSampler.Sampler

/-!
# Strict configurations

Whether a grammar defines all its tokens in angle brackets is looked at when a sampler is made under
a strict configuration, and not when a configuration is set later. So a strict configuration keeps
undefined symbols out of derived trees if the sampler was made under one.
-/

namespace GrammarSampler

variable {g : Grammar} {start symbol : String} {maxDepth : Nat} {tree : Tree} {node : Node}

/-! ## What stands in a derived tree -/

/-- Rules lead from the start to every token of a derived tree. -/
theorem Strategy.reaches_of_mem_nodes {strategy : Strategy} {nodeLimit : Option Nat}
    {d : Derivation} (h : (Setting.own g maxDepth nodeLimit).Admits 0 d)
    (hn : node ∈ (strategy.treeOf d).nodes) : g.Reaches d.root node.symbol := by
  obtain ⟨id, hlt, rfl⟩ := Array.mem_iff_getElem.1 hn
  obtain ⟨depth, hv⟩ := strategy.exists_visit_of_lt d hlt
  obtain ⟨e, hpart, hshows, -⟩ := exists_part_of_visit h hv
  have hsymbol := hshows.symbol?_eq
  rw [Tree.symbol?, Array.getElem?_eq_getElem hlt, Option.map_some, Option.some.injEq] at hsymbol
  rw [hsymbol]
  exact (hpart.complete h.complete.1).2

theorem leaf_of_derive {strategy : Strategy} {nodeLimit : Option Nat} {source after : Source}
    (h : derive g (.ofGrammar g) strategy nodeLimit start maxDepth source = some (.ok tree, after))
    (hn : node ∈ tree.nodes) (hleaf : node.state = .leaf) :
    g.defines node.symbol = false ∧ g.Reaches start node.symbol := by
  rw [derive_eq_ok_iff, strategy.setting_eq_own] at h
  obtain ⟨d, hyields⟩ := (Setting.grow_eq_ok_iff (Source.obeys_choose _)).1 h
  obtain rfl : tree = strategy.treeOf d := hyields.tree
  rw [← hyields.root]
  exact ⟨(Strategy.leaf_iff_not_defines hyields.admits hn).1 hleaf,
    Strategy.reaches_of_mem_nodes hyields.admits hn⟩

theorem Grammar.Reaches.eq_or_mem_undefinedSymbols (h : g.Reaches start symbol)
    (hbracketed : isBracketed symbol = true) (hdefines : g.defines symbol = false) :
    symbol = start ∨ symbol ∈ g.undefinedSymbols := by
  cases h with
  | refl => exact .inl rfl
  | step _ hrule htoken =>
      exact .inr (mem_undefinedSymbols_iff.2 ⟨hbracketed, hdefines, _, _, hrule, htoken⟩)

namespace Sampler

variable {s : Sampler} {config : Config} {source after : Source}

/-! ## Samplers in use -/

/-- The samplers that one for `g` made under `config` becomes in use, in any number of steps.
Deriving leaves a sampler as it is. -/
inductive Reached (g : Grammar) (config : Config) : Sampler → Prop
  | made {s : Sampler} (h : Sampler.ofGrammar g config = .ok s) : Reached g config s
  | configured {s : Sampler} (hs : Reached g config s) (next : Config) :
      Reached g config (s.withConfig next)
  | derived {s : Sampler} (hs : Reached g config s) {start : String} {maxDepth : Nat}
      {source after : Source} {result : Except Fault Tree}
      (h : s.derive start maxDepth source = some (result, after)) : Reached g config s

theorem ofGrammar_eq_ok_iff : Sampler.ofGrammar g config = .ok s ↔
    (config.strict = true → g.undefinedSymbols = []) ∧ s = ⟨g, .ofGrammar g, config, rfl⟩ := by
  rw [ofGrammar]
  split
  · next symbol more hundefined =>
      cases hstrict : config.strict <;> simp [hundefined, @eq_comm _ s]
  · next hundefined => simp [hundefined, @eq_comm _ s]

theorem Reached.grammar_eq (h : Reached g config s) : s.grammar = g := by
  induction h with
  | made h => rw [(ofGrammar_eq_ok_iff.1 h).2]
  | configured _ _ ih => exact ih
  | derived _ _ ih => exact ih

theorem Reached.undefinedSymbols_eq_nil (h : Reached g config s) (hstrict : config.strict = true) :
    g.undefinedSymbols = [] := by
  induction h with
  | made h => exact (ofGrammar_eq_ok_iff.1 h).1 hstrict
  | configured _ _ ih => exact ih
  | derived _ _ ih => exact ih

theorem derive_eq_ok_iff_of_strict (hstrict : s.config.strict = true) :
    s.derive start maxDepth source = some (.ok tree, after) ↔
      (isBracketed start = true → s.grammar.defines start = true) ∧
        GrammarSampler.derive s.grammar (.ofGrammar s.grammar) s.config.strategy s.config.nodeLimit
          start maxDepth source = some (.ok tree, after) := by
  rw [derive, hstrict, Bool.true_and, s.costs_eq]
  cases isBracketed start <;> cases s.grammar.defines start <;> simp

/-! ## Strictness in use -/

/-- Under a strict configuration a leaf in angle brackets is an undefined symbol of the grammar, and
the sampler was not made under a strict configuration. -/
theorem bracketed_leaf_of_strict (hs : Reached g config s) (hstrict : s.config.strict = true)
    (hderive : s.derive start maxDepth source = some (.ok tree, after)) (hn : node ∈ tree.nodes)
    (hleaf : node.state = .leaf) (hbracketed : isBracketed node.symbol = true) :
    config.strict = false ∧ node.symbol ≠ start ∧ node.symbol ∈ g.undefinedSymbols := by
  obtain ⟨hstart, hderive⟩ := (derive_eq_ok_iff_of_strict hstrict).1 hderive
  rw [hs.grammar_eq] at hstart hderive
  obtain ⟨hdefines, hreaches⟩ := leaf_of_derive hderive hn hleaf
  have hne : node.symbol ≠ start := by
    intro heq
    rw [heq] at hbracketed hdefines
    exact Bool.false_ne_true (hdefines.symm.trans (hstart hbracketed))
  have hmem := (hreaches.eq_or_mem_undefinedSymbols hbracketed hdefines).resolve_left hne
  refine ⟨Bool.eq_false_iff.2 fun hmade => ?_, hne, hmem⟩
  rw [hs.undefinedSymbols_eq_nil hmade] at hmem
  cases hmem

/-- A rule with a token that has no entry. -/
def misspelt : Grammar :=
  ⟨⟨[("<s>", [⟨["a", "<digt>"]⟩])], List.pairwise_singleton _ _⟩⟩

def strictConfig : Config := { strict := true }

/-- A sampler that is made under the usual configuration and becomes strict later. -/
def lateStrict : Sampler := ⟨misspelt, .ofGrammar misspelt, strictConfig, rfl⟩

def misspeltTree : Tree :=
  ⟨#[⟨"<s>", .expanded 0 [1, 2]⟩, ⟨"a", .leaf⟩, ⟨"<digt>", .leaf⟩]⟩

theorem mem_misspeltTree : ⟨"<digt>", .leaf⟩ ∈ misspeltTree.nodes := by
  simp [misspeltTree]

theorem reached_lateStrict : Reached misspelt .usual lateStrict :=
  .configured (.made (ofGrammar_eq_ok_iff.2 ⟨by decide, rfl⟩)) strictConfig

theorem derive_lateStrict :
    lateStrict.derive "<s>" 5 (.ofScript []) = some (.ok misspeltTree, ⟨.script [], 0, 1⟩) := by
  decide +kernel

theorem bracketed_leaf_of_lateStrict :
    Reached misspelt .usual lateStrict ∧ lateStrict.config.strict = true ∧
      lateStrict.derive "<s>" 5 (.ofScript []) = some (.ok misspeltTree, ⟨.script [], 0, 1⟩) ∧
      ⟨"<digt>", .leaf⟩ ∈ misspeltTree.nodes ∧ isBracketed "<digt>" = true ∧
      Config.usual.strict = false ∧ "<digt>" ≠ "<s>" ∧ "<digt>" ∈ misspelt.undefinedSymbols := by
  have hbracketed : isBracketed "<digt>" = true := by decide
  exact ⟨reached_lateStrict, rfl, derive_lateStrict, mem_misspeltTree, hbracketed,
    bracketed_leaf_of_strict reached_lateStrict rfl derive_lateStrict mem_misspeltTree rfl
      hbracketed⟩

/-- Setting a strict configuration does not keep undefined symbols out of derived trees. -/
theorem not_strict_of_withConfig : ¬ ∀ (g : Grammar) (config : Config) (s : Sampler),
    Reached g config s → s.config.strict = true →
      ∀ start maxDepth source tree after,
        s.derive start maxDepth source = some (.ok tree, after) →
          ∀ node ∈ tree.nodes, node.state = .leaf → isBracketed node.symbol = false := by
  intro h
  have hleaf := h misspelt .usual lateStrict reached_lateStrict rfl _ _ _ _ _ derive_lateStrict
    _ mem_misspeltTree rfl
  exact absurd hleaf (by decide)

end Sampler

end GrammarSampler

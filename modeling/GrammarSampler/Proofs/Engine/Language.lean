import GrammarSampler.Proofs.Engine.Replay
import GrammarSampler.Sampler

/-!
# The language of a grammar

The texts that a sampler can draw are the texts of the complete derivations of its grammar. A deeper
budget only adds texts, and every text is drawn from the budget on that its derivation fits into.
-/

namespace GrammarSampler

variable {start text : String} {maxDepth : Nat}

/-- The texts of the complete derivations that begin with `start`. -/
def Grammar.language (g : Grammar) (start : String) : Set String :=
  {text | ∃ d : Derivation, d.root = start ∧ d.Complete g ∧ d.text = text}

namespace Sampler

variable {s : Sampler}

/-- The texts that some script draws. -/
def texts (s : Sampler) (start : String) (maxDepth : Nat) : Set String :=
  {text | ∃ words after, s.sample start maxDepth (.ofScript words) = some (.ok text, after)}

theorem sample_eq_ok_iff {source after : Source} :
    s.sample start maxDepth source = some (.ok text, after) ↔
      ∃ tree, s.derive start maxDepth source = some (.ok tree, after) ∧ tree.text = text := by
  rw [sample, Option.map_eq_some_iff]
  apply Iff.intro
  · intro h
    obtain ⟨⟨result, last⟩, hderive, heq⟩ := h
    cases result with
    | error fault => cases heq
    | ok tree =>
        cases heq
        exact ⟨tree, hderive, rfl⟩
  · intro h
    obtain ⟨tree, hderive, rfl⟩ := h
    exact ⟨_, hderive, rfl⟩

theorem derive_of_not_strict (h : s.config.strict = false) (source : Source) :
    s.derive start maxDepth source = GrammarSampler.derive s.grammar (.ofGrammar s.grammar)
      s.config.strategy s.config.nodeLimit start maxDepth source := by
  simp [derive, h, s.costs_eq]

/-- A text that can be drawn is that of a thrifty derivation, and the other way round. -/
theorem mem_texts_iff (hstrict : s.config.strict = false) (hlimit : s.config.nodeLimit = none)
    (hfew : ∀ symbol, (s.grammar.rulesOf symbol).length < 2 ^ 32) :
    text ∈ s.texts start maxDepth ↔ ∃ d : Derivation, d.root = start ∧ d.Complete s.grammar ∧
      d.Thrifty (CostTable.ofGrammar s.grammar).cheapRules maxDepth 0 ∧ d.text = text := by
  apply Iff.intro
  · intro h
    obtain ⟨words, after, hsample⟩ := h
    obtain ⟨tree, hderive, rfl⟩ := sample_eq_ok_iff.1 hsample
    rw [derive_of_not_strict hstrict] at hderive
    obtain ⟨d, hroot, hcomplete, hthrifty, hshape⟩ := exists_shape_of_derive hderive
    exact ⟨d, hroot, hcomplete, hthrifty, (Tree.text_of_shows hshape.shows hshape.size).symm⟩
  · intro h
    obtain ⟨d, hroot, hcomplete, hthrifty, rfl⟩ := h
    obtain ⟨words, tree, after, hderive, hshape, -⟩ :=
      exists_script_derives hfew hroot hcomplete hthrifty
    rw [← hlimit, ← derive_of_not_strict hstrict] at hderive
    exact ⟨words, after, sample_eq_ok_iff.2
      ⟨tree, hderive, Tree.text_of_shows hshape.shows hshape.size⟩⟩

/-- The texts that a sampler can draw are the language of its grammar. -/
theorem texts_eq_language (s : Sampler) (hstrict : s.config.strict = false)
    (hlimit : s.config.nodeLimit = none)
    (hfew : ∀ symbol, (s.grammar.rulesOf symbol).length < 2 ^ 32) (start : String) :
    {text | ∃ maxDepth, text ∈ s.texts start maxDepth} = s.grammar.language start ∧
    (∀ d : Derivation, d.root = start → d.Complete s.grammar →
      ∀ maxDepth, d.height ≤ maxDepth + 1 → d.text ∈ s.texts start maxDepth) ∧
    ∀ maxDepth, s.texts start maxDepth ⊆ s.texts start (maxDepth + 1) := by
  have hdraws : ∀ d : Derivation, d.root = start → d.Complete s.grammar →
      ∀ maxDepth, d.height ≤ maxDepth + 1 → d.text ∈ s.texts start maxDepth := by
    intro d hroot hcomplete maxDepth hheight
    refine (mem_texts_iff hstrict hlimit hfew).2 ⟨d, hroot, hcomplete, ?_, rfl⟩
    exact Derivation.thrifty_of_height_le ((Nat.zero_add d.height).trans_le hheight)
  refine ⟨Set.Subset.antisymm ?_ ?_, hdraws, ?_⟩
  · intro text h
    obtain ⟨maxDepth, htext⟩ := h
    obtain ⟨d, hroot, hcomplete, -, rfl⟩ := (mem_texts_iff hstrict hlimit hfew).1 htext
    exact ⟨d, hroot, hcomplete, rfl⟩
  · intro text h
    obtain ⟨d, hroot, hcomplete, rfl⟩ := h
    exact ⟨d.height, hdraws d hroot hcomplete d.height (Nat.le_succ _)⟩
  · intro maxDepth text htext
    obtain ⟨d, hroot, hcomplete, hthrifty, rfl⟩ := (mem_texts_iff hstrict hlimit hfew).1 htext
    have hdeeper := hthrifty.mono (Nat.le_succ maxDepth)
    exact (mem_texts_iff hstrict hlimit hfew).2 ⟨d, hroot, hcomplete, hdeeper, rfl⟩

def nested : Sampler := ⟨.nested, .ofGrammar .nested, .usual, rfl⟩

theorem texts_eq_language_nested :
    nested.config.strict = false ∧ nested.config.nodeLimit = none ∧
      (∀ symbol, (nested.grammar.rulesOf symbol).length < 2 ^ 32) ∧
      "(a)" ∈ nested.texts "<s>" 1 ∧ "(a)" ∈ nested.texts "<s>" 2 ∧
      "(a)" ∈ Grammar.nested.language "<s>" := by
  have hfew : ∀ symbol, (nested.grammar.rulesOf symbol).length < 2 ^ 32 :=
    Grammar.length_rulesOf_nested_lt
  obtain ⟨hsame, hdraws, hdeeper⟩ := texts_eq_language nested rfl rfl hfew "<s>"
  have htext : "(a)" ∈ nested.texts "<s>" 1 :=
    hdraws .nested rfl Derivation.complete_nested 1 (by decide)
  exact ⟨rfl, rfl, hfew, htext, hdeeper 1 htext, hsame ▸ ⟨1, htext⟩⟩

end Sampler

end GrammarSampler

import GrammarSampler.Grammar.Lemmas
import GrammarSampler.Proofs.Engine.Ends

/-!
# Sites that are met

The sites at which a derivation may come to look for a rule. Their symbols are those that rules lead
to, and past the depth budget they are reached by cheap rules only.
-/

namespace GrammarSampler.Setting

variable {s : Setting} {start : String} {site : Site}

theorem exists_rule_of_mem_tokens {symbol token : String} {index : Nat}
    (h : token ∈ s.tokens symbol index) :
    ∃ rule, (s.grammar.rulesOf symbol)[index]? = some rule ∧ token ∈ rule.tokens := by
  cases hr : (s.grammar.rulesOf symbol)[index]? with
  | none => simp [tokens, hr] at h
  | some rule =>
      rw [tokens_eq hr] at h
      exact ⟨rule, rfl, h⟩

/-- Whether a derivation from `start` may come to look for a rule at a site. -/
inductive Meets (s : Setting) (start : String) : Site → Prop
  | root (hdefines : s.grammar.defines start = true) : Meets s start (.root start)
  | child {parent child : Site} {options : Options} {rule : Nat} (hparent : Meets s start parent)
      (hoptions : s.options parent.symbol parent.depth = .ok options) (hrule : options.Allows rule)
      (hchild : Run.ChildOf parent 0 (s.tokens parent.symbol rule) child)
      (hdefines : s.grammar.defines child.symbol = true) : Meets s start child

theorem Meets.defines (h : s.Meets start site) : s.grammar.defines site.symbol = true := by
  cases h with
  | root hdefines => exact hdefines
  | child _ _ _ _ hdefines => exact hdefines

/-- Whether a failure comes from the rules of a site that is met, or from a tree that is too big. -/
def Stops (s : Setting) (start : String) (failure : Failure) : Prop :=
  s.Meets start failure.site ∧
    (s.options failure.site.symbol failure.site.depth = .error failure.fault ∨
      ∃ size, s.checkSize size = .error failure.fault)

variable {g : Grammar} {maxDepth : Nat} {nodeLimit : Option Nat}

end GrammarSampler.Setting

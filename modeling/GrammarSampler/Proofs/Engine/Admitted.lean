import GrammarSampler.Grammar.Lemmas
import GrammarSampler.Proofs.Derivation.Height
import GrammarSampler.Proofs.Engine.Steps

/-!
# Admitted derivations

Which derivations the policy admits, and when a chooser makes the choices that lead to one.
-/

namespace GrammarSampler

variable {σ : Type} {s : Setting} {choose : Chooser σ}

/-! ## Options -/

def Options.Allows : Options → Nat → Prop
  | .any count, rule => rule < count
  | .among indices, rule => rule ∈ indices

instance (options : Options) (rule : Nat) : Decidable (options.Allows rule) :=
  match options with
  | .any count => inferInstanceAs (Decidable (rule < count))
  | .among indices => inferInstanceAs (Decidable (rule ∈ indices))

def Options.count : Options → Nat
  | .any count => count
  | .among indices => indices.length

/-- Whether a chooser keeps to the options that it is given. -/
def Chooser.Obeys (choose : Chooser σ) (s : Setting) : Prop :=
  ∀ site options source rule after, s.options site.symbol site.depth = .ok options →
    choose site options source = some (rule, after) → options.Allows rule

namespace Setting

theorem rulesOf_ne_nil_of_options {symbol : String} {depth : Nat} {options : Options}
    (h : s.options symbol depth = .ok options) : s.grammar.rulesOf symbol ≠ [] := by
  intro hr
  rw [options_eq_emptyRuleSet hr] at h
  cases h

theorem defines_of_options {symbol : String} {depth : Nat} {options : Options}
    (h : s.options symbol depth = .ok options) : s.grammar.defines symbol = true :=
  Grammar.defines_of_rulesOf_ne_nil (rulesOf_ne_nil_of_options h)

theorem options_eq_ok_iff {symbol : String} {depth : Nat} {options : Options} :
    s.options symbol depth = .ok options ↔ s.grammar.rulesOf symbol ≠ [] ∧
      ((depth ≤ s.maxDepth ∧ options = .any (s.grammar.rulesOf symbol).length) ∨
        (s.maxDepth < depth ∧ s.cheap symbol ≠ [] ∧ options = .among (s.cheap symbol))) := by
  apply Iff.intro
  · intro h
    have hr := rulesOf_ne_nil_of_options h
    refine ⟨hr, ?_⟩
    rcases Nat.lt_or_ge s.maxDepth depth with hd | hd
    · by_cases hc : s.cheap symbol = []
      · rw [options_eq_unproductive hr hd hc] at h
        cases h
      · rw [options_eq_among hr hd hc] at h
        cases h
        exact .inr ⟨hd, hc, rfl⟩
    · rw [options_eq_any hr hd] at h
      cases h
      exact .inl ⟨hd, rfl⟩
  · intro hall
    obtain ⟨hr, ⟨hd, rfl⟩ | ⟨hd, hc, rfl⟩⟩ := hall
    · exact options_eq_any hr hd
    · exact options_eq_among hr hd hc

theorem tokens_eq {symbol : String} {index : Nat} {rule : Rule}
    (h : (s.grammar.rulesOf symbol)[index]? = some rule) : s.tokens symbol index = rule.tokens := by
  simp [tokens, h]

/-! ## Derivations -/

/-- Whether a derivation whose root is at `depth` expands every symbol with an entry by one of the
rules that may be chosen for it. -/
inductive Admits (s : Setting) : Nat → Derivation → Prop
  | leaf {depth : Nat} {symbol : String} (hdefines : s.grammar.defines symbol = false) :
      Admits s depth (.leaf symbol)
  | node {depth rule : Nat} {symbol : String} {options : Options} {children : List Derivation}
      (hoptions : s.options symbol depth = .ok options) (hrule : options.Allows rule)
      (hroots : children.map Derivation.root = s.tokens symbol rule)
      (hchildren : ∀ child ∈ children, Admits s (depth + 1) child) :
      Admits s depth (.node symbol rule children)

theorem Admits.eq_leaf {depth : Nat} {d : Derivation} (h : s.Admits depth d)
    (hd : s.grammar.defines d.root = false) : d = .leaf d.root := by
  cases h with
  | leaf => rfl
  | node hoptions => simp [Derivation.root, defines_of_options hoptions] at hd

theorem Admits.height_pos {depth : Nat} {d : Derivation} (h : s.Admits depth d)
    (hd : s.grammar.defines d.root = true) : 0 < d.height := by
  cases h with
  | leaf hl => simp [Derivation.root, hl] at hd
  | node => exact Nat.succ_pos _

theorem Admits.exists_node {depth : Nat} {symbol : String} {d : Derivation} (h : s.Admits depth d)
    (hroot : d.root = symbol) (hd : s.grammar.defines symbol = true) :
    ∃ rule ds, d = .node symbol rule ds := by
  cases h with
  | leaf hl =>
      rw [Derivation.root] at hroot
      rw [hroot, hd] at hl
      cases hl
  | @node _ rule _ _ ds =>
      subst hroot
      exact ⟨rule, ds, rfl⟩

/-- A derivation by a rule is admitted with its rule, and is one level higher than its children. -/
theorem admits_node_iff {depth rule levels : Nat} {symbol : String} {ds : List Derivation} :
    s.Admits depth (.node symbol rule ds) ∧ (Derivation.node symbol rule ds).height ≤ levels + 1 ↔
      (∃ options, s.options symbol depth = .ok options ∧ options.Allows rule) ∧
        ds.map Derivation.root = s.tokens symbol rule ∧
        ∀ d ∈ ds, s.Admits (depth + 1) d ∧ d.height ≤ levels := by
  rw [Derivation.height, Nat.add_le_add_iff_right, Derivation.heights_le_iff]
  apply Iff.intro
  · intro h
    obtain ⟨hadmits, hheight⟩ := h
    cases hadmits with
    | node ho hrule hroots hchildren =>
        exact ⟨⟨_, ho, hrule⟩, hroots, fun d hd => ⟨hchildren d hd, hheight d hd⟩⟩
  · intro h
    obtain ⟨⟨options, ho, hrule⟩, hroots, hds⟩ := h
    exact ⟨.node ho hrule hroots fun d hd => (hds d hd).1, fun d hd => (hds d hd).2⟩

/-! ## Choices -/

/-- Whether the choices at some sites, one after the other, are the given rules. -/
def Choices (s : Setting) (choose : Chooser σ) : σ → List (Site × Nat) → σ → Prop
  | source, [], after => source = after
  | source, (site, rule) :: more, after =>
    ∃ options middle, s.options site.symbol site.depth = .ok options ∧
      choose site options source = some (rule, middle) ∧ Choices s choose middle more after

theorem choices_append {source after : σ} {picks more : List (Site × Nat)} :
    s.Choices choose source (picks ++ more) after ↔
      ∃ middle, s.Choices choose source picks middle ∧ s.Choices choose middle more after := by
  induction picks generalizing source with
  | nil => simp [Choices]
  | cons pick picks ih =>
      obtain ⟨site, rule⟩ := pick
      simp only [List.cons_append, Choices, ih]
      apply Iff.intro
      · intro h
        obtain ⟨options, middle, ho, hc, last, hp, hm⟩ := h
        exact ⟨last, ⟨options, middle, ho, hc, hp⟩, hm⟩
      · intro h
        obtain ⟨last, ⟨options, middle, ho, hc, hp⟩, hm⟩ := h
        exact ⟨options, middle, ho, hc, last, hp, hm⟩

end Setting

end GrammarSampler

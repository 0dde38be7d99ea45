import GrammarSampler.Derivation
import Mathlib

/-!
# Derivations of bounded height

Which symbols can be expanded to the end in a given number of steps. Over the heights this is a
recursion on the rules of the grammar, and it stands for the derivations in the theory of costs.
-/

namespace GrammarSampler.Derivation

variable {g : Grammar}

/-! ## Forests -/

theorem heights_le_iff {ds : List Derivation} {n : Nat} :
    heights ds ≤ n ↔ ∀ d ∈ ds, d.height ≤ n := by
  induction ds with
  | nil => simp [heights]
  | cons d ds ih => simp [heights, ih]

theorem exists_forest {p : Derivation → Prop} {tokens : List String}
    (h : ∀ token ∈ tokens, ∃ d, p d ∧ d.root = token) :
    ∃ ds : List Derivation, ds.map root = tokens ∧ ∀ d ∈ ds, p d := by
  induction tokens with
  | nil => exact ⟨[], rfl, by simp⟩
  | cons token tokens ih =>
      obtain ⟨d, hd, rfl⟩ := h token (by simp)
      obtain ⟨ds, rfl, hds⟩ := ih fun token ht => h token (by simp [ht])
      exact ⟨d :: ds, rfl, by simpa [hd] using hds⟩

/-! ## Derivations to the end -/

/-- Whether a derivation expands every symbol that has rules. -/
def Exhausts (g : Grammar) (d : Derivation) : Prop :=
  d.Follows g fun symbol => g.rulesOf symbol = []

def rule? : Derivation → Option Nat
  | .leaf _ | .pending _ => none
  | .node _ rule _ => some rule

/-- The derivations to the end that start at `symbol`. -/
def startingAt (g : Grammar) (symbol : String) : Set Derivation :=
  {d | Exhausts g d ∧ d.root = symbol}

def startingBy (g : Grammar) (symbol : String) (index : Nat) : Set Derivation :=
  {d | d ∈ startingAt g symbol ∧ d.rule? = some index}

/-- Whether `symbol` has a derivation to the end of a height of at most `n`. -/
def Within (g : Grammar) (symbol : String) (n : Nat) : Prop :=
  ∃ d ∈ startingAt g symbol, d.height ≤ n

theorem Within.mono {symbol : String} {m n : Nat} (h : Within g symbol m) (hmn : m ≤ n) :
    Within g symbol n := by
  obtain ⟨d, hd, hh⟩ := h
  exact ⟨d, hd, hh.trans hmn⟩

theorem within_of_rulesOf_eq_nil {symbol : String} (h : g.rulesOf symbol = []) (n : Nat) :
    Within g symbol n :=
  ⟨.leaf symbol, ⟨.leaf h, rfl⟩, by simp [height]⟩

theorem within_zero_iff {symbol : String} : Within g symbol 0 ↔ g.rulesOf symbol = [] := by
  apply Iff.intro
  · intro hall
    obtain ⟨d, ⟨hd, rfl⟩, hh⟩ := hall
    cases hd with
    | leaf h => exact h
    | node => simp [height] at hh
  · exact fun h => within_of_rulesOf_eq_nil h 0

theorem exists_height_le_iff_of_rule {symbol : String} {index n : Nat} {rule : Rule}
    (hrule : (g.rulesOf symbol)[index]? = some rule) :
    (∃ d ∈ startingBy g symbol index, d.height ≤ n + 1) ↔
      ∀ token ∈ rule.tokens, Within g token n := by
  apply Iff.intro
  · intro hall token ht
    obtain ⟨d, ⟨⟨hd, rfl⟩, hi⟩, hh⟩ := hall
    cases hd with
    | leaf => simp [rule?] at hi
    | node hr hroots hchildren =>
        simp only [rule?, Option.some.injEq] at hi
        subst hi
        rw [root] at hrule
        cases hr.symm.trans hrule
        rw [← hroots] at ht
        obtain ⟨child, hc, rfl⟩ := List.mem_map.1 ht
        rw [height, Nat.add_le_add_iff_right, heights_le_iff] at hh
        exact ⟨child, ⟨hchildren child hc, rfl⟩, hh child hc⟩
  · intro h
    obtain ⟨ds, hroots, hds⟩ := exists_forest (p := fun d => Exhausts g d ∧ d.height ≤ n)
      fun token ht => by
        obtain ⟨d, ⟨hd, hr⟩, hh⟩ := h token ht
        exact ⟨d, ⟨hd, hh⟩, hr⟩
    have hnode : Exhausts g (.node symbol index ds) :=
      .node hrule hroots fun d hd => (hds d hd).1
    refine ⟨.node symbol index ds, ⟨⟨hnode, rfl⟩, rfl⟩, ?_⟩
    rw [height, Nat.add_le_add_iff_right, heights_le_iff]
    exact fun d hd => (hds d hd).2

theorem within_succ_iff {symbol : String} {n : Nat} :
    Within g symbol (n + 1) ↔
      g.rulesOf symbol = [] ∨
        ∃ rule ∈ g.rulesOf symbol, ∀ token ∈ rule.tokens, Within g token n := by
  apply Iff.intro
  · intro hall
    obtain ⟨d, ⟨hd, rfl⟩, hh⟩ := hall
    cases hd with
    | leaf h => exact .inl h
    | node hr hroots hchildren =>
        refine .inr ⟨_, List.mem_of_getElem? hr, (exists_height_le_iff_of_rule hr).1 ?_⟩
        exact ⟨_, ⟨⟨.node hr hroots hchildren, rfl⟩, rfl⟩, hh⟩
  · rintro (h | ⟨rule, hr, h⟩)
    · exact within_of_rulesOf_eq_nil h _
    · obtain ⟨index, hi⟩ := List.mem_iff_getElem?.1 hr
      obtain ⟨d, hd, hh⟩ := (exists_height_le_iff_of_rule hi).2 h
      exact ⟨d, hd.1, hh⟩

end GrammarSampler.Derivation

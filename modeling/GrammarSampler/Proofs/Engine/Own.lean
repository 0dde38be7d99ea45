import GrammarSampler.Proofs.Cost.Cheap
import GrammarSampler.Proofs.Engine.Grow
import GrammarSampler.Proofs.Random.Accept

/-!
# Own costs

Settings in which the cheap rules are those of the grammar's own cost table. They admit the complete
derivations that keep to cheap rules below the depth budget.
-/

namespace GrammarSampler

/-! ## Drawing from a source -/

theorem Source.obeys_choose (s : Setting) : Source.choose.Obeys s := by
  intro site options source rule after hoptions hchoose
  obtain ⟨hr, ⟨-, rfl⟩ | ⟨-, hcheap, rfl⟩⟩ := Setting.options_eq_ok_iff.1 hoptions
  · exact (draws_of_below hchoose).lt (List.length_pos_iff.2 hr)
  · rw [choose, Option.map_eq_some_iff] at hchoose
    obtain ⟨⟨place, last⟩, hbelow, heq⟩ := hchoose
    cases heq
    have hplace := (draws_of_below hbelow).lt (List.length_pos_iff.2 hcheap)
    rw [List.getElem?_eq_getElem hplace]
    exact List.getElem_mem hplace

/-! ## The setting of a grammar -/

/-- The setting in which the cheapest rules of `g` may be chosen below `maxDepth`. -/
def Setting.own (g : Grammar) (maxDepth : Nat) (nodeLimit : Option Nat) : Setting :=
  ⟨g, (CostTable.ofGrammar g).cheapRules, maxDepth, nodeLimit⟩

theorem Strategy.cheap_ofGrammar (strategy : Strategy) (g : Grammar) :
    strategy.cheap (.ofGrammar g) = (CostTable.ofGrammar g).cheapRules := by
  funext symbol
  cases strategy with
  | levelOrder => rfl
  | depthFirst => rw [cheap, Cost.tied_eq_cheapest, CostTable.cheapRules_ofGrammar]

/-- The setting in which an order derives with the costs of the grammar. -/
def Strategy.setting (strategy : Strategy) (g : Grammar) (maxDepth : Nat)
    (nodeLimit : Option Nat) : Setting :=
  ⟨g, strategy.cheap (.ofGrammar g), maxDepth, nodeLimit⟩

theorem Strategy.setting_eq_own (strategy : Strategy) (g : Grammar) (maxDepth : Nat)
    (nodeLimit : Option Nat) :
    strategy.setting g maxDepth nodeLimit = .own g maxDepth nodeLimit := by
  rw [setting, strategy.cheap_ofGrammar, Setting.own]

theorem derive_eq_ok_iff {g : Grammar} {strategy : Strategy} {nodeLimit : Option Nat}
    {start : String} {maxDepth : Nat} {source after : Source} {tree : Tree} :
    derive g (.ofGrammar g) strategy nodeLimit start maxDepth source = some (.ok tree, after) ↔
      (strategy.setting g maxDepth nodeLimit).grow strategy Source.choose start source =
        some (.ok (), ⟨tree, after⟩) := by
  rw [derive, Option.map_eq_some_iff]
  apply Iff.intro
  · intro h
    obtain ⟨⟨result, growth⟩, hgrow, heq⟩ := h
    cases result with
    | error failure => cases heq
    | ok =>
        cases heq
        exact hgrow
  · intro hgrow
    exact ⟨_, hgrow, rfl⟩

namespace Setting

variable {g : Grammar} {maxDepth : Nat} {nodeLimit : Option Nat}

theorem lt_length_of_allows {symbol : String} {depth rule : Nat} {options : Options}
    (ho : (own g maxDepth nodeLimit).options symbol depth = .ok options)
    (hrule : options.Allows rule) : rule < (g.rulesOf symbol).length := by
  obtain ⟨-, ⟨-, rfl⟩ | ⟨-, -, rfl⟩⟩ := options_eq_ok_iff.1 ho
  · exact hrule
  · exact CostTable.lt_length_of_mem_cheapRules hrule

theorem exists_allows_iff {symbol : String} {depth rule : Nat} :
    (∃ options, (own g maxDepth nodeLimit).options symbol depth = .ok options ∧
        options.Allows rule) ↔
      rule < (g.rulesOf symbol).length ∧
        (maxDepth < depth → rule ∈ (CostTable.ofGrammar g).cheapRules symbol) := by
  apply Iff.intro
  · intro h
    obtain ⟨options, ho, hrule⟩ := h
    refine ⟨lt_length_of_allows ho hrule, fun hdepth => ?_⟩
    obtain ⟨-, ⟨hd, rfl⟩ | ⟨-, -, rfl⟩⟩ := options_eq_ok_iff.1 ho
    · exact absurd hdepth (Nat.not_lt.2 hd)
    · exact hrule
  · intro h
    obtain ⟨hlt, hcheap⟩ := h
    have hr : g.rulesOf symbol ≠ [] := List.ne_nil_of_length_pos (Nat.zero_lt_of_lt hlt)
    rcases Nat.lt_or_ge maxDepth depth with hd | hd
    · have hmem := hcheap hd
      exact ⟨_, options_eq_among hr hd (List.ne_nil_of_mem hmem), hmem⟩
    · exact ⟨_, options_eq_any hr hd, hlt⟩

end Setting

/-! ## Thrifty derivations -/

namespace Derivation

mutual

/-- Whether a derivation whose root is at `depth` keeps to cheap rules below `maxDepth`. -/
def Thrifty (cheap : String → List Nat) (maxDepth depth : Nat) : Derivation → Prop
  | .leaf _ | .pending _ => True
  | .node symbol rule children =>
    (maxDepth < depth → rule ∈ cheap symbol) ∧ ThriftyAll cheap maxDepth (depth + 1) children

def ThriftyAll (cheap : String → List Nat) (maxDepth depth : Nat) : List Derivation → Prop
  | [] => True
  | d :: ds => Thrifty cheap maxDepth depth d ∧ ThriftyAll cheap maxDepth depth ds

end

theorem thriftyAll_iff {cheap : String → List Nat} {maxDepth depth : Nat} {ds : List Derivation} :
    ThriftyAll cheap maxDepth depth ds ↔ ∀ d ∈ ds, Thrifty cheap maxDepth depth d := by
  induction ds with
  | nil => simp [ThriftyAll]
  | cons d ds ih => rw [ThriftyAll, ih, List.forall_mem_cons]

mutual

/-- Whatever is thrifty under a budget is thrifty under a larger one. -/
theorem Thrifty.mono {cheap : String → List Nat} {m n depth : Nat} (hmn : m ≤ n) :
    {d : Derivation} → d.Thrifty cheap m depth → d.Thrifty cheap n depth
  | .leaf _, _ | .pending _, _ => trivial
  | .node _ _ _, h => ⟨fun hdepth => h.1 (Nat.lt_of_le_of_lt hmn hdepth), ThriftyAll.mono hmn h.2⟩

theorem ThriftyAll.mono {cheap : String → List Nat} {m n depth : Nat} (hmn : m ≤ n) :
    {ds : List Derivation} → ThriftyAll cheap m depth ds → ThriftyAll cheap n depth ds
  | [], _ => trivial
  | _ :: _, h => ⟨Thrifty.mono hmn h.1, ThriftyAll.mono hmn h.2⟩

end

mutual

/-- A derivation that makes all its expansions down to the budget is thrifty. -/
theorem thrifty_of_height_le {cheap : String → List Nat} {maxDepth depth : Nat} :
    {d : Derivation} → depth + d.height ≤ maxDepth + 1 → d.Thrifty cheap maxDepth depth
  | .leaf _, _ | .pending _, _ => trivial
  | .node _ _ ds, h => by
      rw [height] at h
      refine ⟨fun hdepth => by omega, thriftyAll_of_heights_le ?_⟩
      omega

theorem thriftyAll_of_heights_le {cheap : String → List Nat} {maxDepth depth : Nat} :
    {ds : List Derivation} → depth + heights ds ≤ maxDepth + 1 → ThriftyAll cheap maxDepth depth ds
  | [], _ => trivial
  | d :: ds, h => by
      rw [heights] at h
      exact ⟨thrifty_of_height_le (by omega), thriftyAll_of_heights_le (by omega)⟩

end

end Derivation

namespace Setting

variable {g : Grammar} {maxDepth : Nat} {nodeLimit : Option Nat}

theorem Admits.complete {depth : Nat} {d : Derivation}
    (h : (own g maxDepth nodeLimit).Admits depth d) :
    d.Complete g ∧ d.Thrifty (CostTable.ofGrammar g).cheapRules maxDepth depth := by
  induction h with
  | leaf hl => exact ⟨.leaf hl, trivial⟩
  | node ho hrule hroots _ ih =>
      obtain ⟨hlt, hcheap⟩ := exists_allows_iff.1 ⟨_, ho, hrule⟩
      have hr := List.getElem?_eq_getElem hlt
      refine ⟨.node hr ?_ fun d hd => (ih d hd).1, hcheap, ?_⟩
      · rw [hroots, tokens_eq hr]
      · exact Derivation.thriftyAll_iff.2 fun d hd => (ih d hd).2

theorem admits_of_complete {depth : Nat} {d : Derivation} (h : d.Complete g)
    (hthrifty : d.Thrifty (CostTable.ofGrammar g).cheapRules maxDepth depth) :
    (own g maxDepth nodeLimit).Admits depth d := by
  induction h generalizing depth with
  | leaf hl => exact .leaf hl
  | node hr hroots _ ih =>
      obtain ⟨hlt, -⟩ := List.getElem?_eq_some_iff.1 hr
      obtain ⟨options, ho, hrule⟩ := exists_allows_iff.2 ⟨hlt, hthrifty.1⟩
      have htokens : (own g maxDepth nodeLimit).tokens _ _ = _ := tokens_eq hr
      refine .node ho hrule (hroots.trans htokens.symm) fun d hd => ih d hd ?_
      exact Derivation.thriftyAll_iff.1 hthrifty.2 d hd

theorem admits_own_iff {depth : Nat} {d : Derivation} :
    (own g maxDepth nodeLimit).Admits depth d ↔
      d.Complete g ∧ d.Thrifty (CostTable.ofGrammar g).cheapRules maxDepth depth :=
  ⟨Admits.complete, fun h => admits_of_complete h.1 h.2⟩

end Setting

end GrammarSampler

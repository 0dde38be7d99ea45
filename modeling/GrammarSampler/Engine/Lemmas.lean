import GrammarSampler.Engine.Derive

/-!
# Laws of growing

What each step of an engine does to the tree and to the source, as an equation for one run of it.
-/

namespace GrammarSampler

variable {σ : Type}

namespace Run

theorem pure_apply {α : Type} (a : α) (growth : Growth σ) :
    (pure a : Run σ α) growth = some (.ok a, growth) := rfl

theorem throw_apply {α : Type} (failure : Failure) (growth : Growth σ) :
    (throw failure : Run σ α) growth = some (.error failure, growth) := rfl

theorem bind_apply {α β : Type} (m : Run σ α) (f : α → Run σ β) (growth : Growth σ) :
    (m >>= f) growth = (m growth).bind fun
      | (.ok a, after) => f a after
      | (.error failure, after) => some (.error failure, after) := by
  simp only [bind, ExceptT.bind, ExceptT.mk, StateT.bind, ExceptT.bindCont]
  congr 1
  funext p
  rcases p with ⟨_ | _, _⟩ <;> rfl

theorem require_ok {α : Type} (site : Site) (a : α) :
    (require site (.ok a) : Run σ α) = pure a := rfl

theorem require_error {α : Type} (site : Site) (fault : Fault) :
    (require site (.error fault) : Run σ α) = throw ⟨fault, site⟩ := rfl

theorem settle_apply (id : Nat) (state : NodeState) (growth : Growth σ) :
    settle id state growth = some (.ok (), { growth with tree := growth.tree.resolve id state }) :=
  rfl

/-- A child that fits is added at the end of the tree, and the source is left alone. -/
theorem addChild_apply_ok {s : Setting} {growth : Growth σ} (parent : Site) (index : Nat)
    (token : String) (h : s.checkSize (growth.tree.size + 1) = .ok ()) :
    addChild s parent index token growth =
      some (.ok (parent.child index token growth.tree.size),
        { growth with tree := growth.tree.push token (s.stateOf token) }) := by
  rw [addChild, bind_apply]
  show Option.bind (some (Except.ok growth.tree.size, _)) _ = _
  simp only [Option.bind_some, bind_apply, h, require_ok, pure_apply]

/-- A child that is one too many is added, and stops the derivation at its parent. -/
theorem addChild_apply_error {s : Setting} {growth : Growth σ} {fault : Fault} (parent : Site)
    (index : Nat) (token : String) (h : s.checkSize (growth.tree.size + 1) = .error fault) :
    addChild s parent index token growth =
      some (.error ⟨fault, parent⟩,
        { growth with tree := growth.tree.push token (s.stateOf token) }) := by
  rw [addChild, bind_apply]
  show Option.bind (some (Except.ok growth.tree.size, _)) _ = _
  simp only [Option.bind_some, bind_apply, h, require_error, throw_apply]

theorem chooseRule_apply_ok {s : Setting} {choose : Chooser σ} {site : Site} {options : Options}
    (growth : Growth σ) (h : s.options site.symbol site.depth = .ok options) :
    chooseRule s choose site growth =
      (choose site options growth.source).map fun (rule, source) =>
        (.ok rule, { growth with source }) := by
  rw [chooseRule, bind_apply, h, require_ok, pure_apply]
  rfl

theorem chooseRule_apply_error {s : Setting} {choose : Chooser σ} {site : Site} {fault : Fault}
    (growth : Growth σ) (h : s.options site.symbol site.depth = .error fault) :
    chooseRule s choose site growth = some (.error ⟨fault, site⟩, growth) := by
  rw [chooseRule, bind_apply, h, require_error, throw_apply]
  rfl

end Run

/-! ## Which rules may be chosen -/

namespace Setting

theorem options_eq_any {s : Setting} {symbol : String} {depth : Nat}
    (hr : s.grammar.rulesOf symbol ≠ []) (hd : depth ≤ s.maxDepth) :
    s.options symbol depth = .ok (.any (s.grammar.rulesOf symbol).length) := by
  unfold options
  split
  · contradiction
  · simp [hd]

theorem options_eq_among {s : Setting} {symbol : String} {depth : Nat}
    (hr : s.grammar.rulesOf symbol ≠ []) (hd : s.maxDepth < depth) (hc : s.cheap symbol ≠ []) :
    s.options symbol depth = .ok (.among (s.cheap symbol)) := by
  unfold options
  split
  · contradiction
  · rw [if_neg (by omega)]
    split
    · contradiction
    · rfl

theorem options_eq_emptyRuleSet {s : Setting} {symbol : String} {depth : Nat}
    (hr : s.grammar.rulesOf symbol = []) :
    s.options symbol depth = .error (.emptyRuleSet symbol) := by
  simp [options, hr]

theorem options_eq_unproductive {s : Setting} {symbol : String} {depth : Nat}
    (hr : s.grammar.rulesOf symbol ≠ []) (hd : s.maxDepth < depth) (hc : s.cheap symbol = []) :
    s.options symbol depth = .error (.unproductive symbol) := by
  unfold options
  split
  · contradiction
  · rw [if_neg (by omega)]
    simp [hc]

end Setting

end GrammarSampler

import GrammarSampler.Engine.Lemmas
import GrammarSampler.Proofs.Tree.Walk

/-!
# Steps that succeed

When a step of a derivation gives a value, and what it leaves behind then.
-/

namespace GrammarSampler

variable {σ : Type} {s : Setting} {choose : Chooser σ}

/-! ## The limit of nodes -/

namespace Setting

def Fits (s : Setting) (size : Nat) : Prop := s.checkSize size = .ok ()

theorem fits_iff {size : Nat} : s.Fits size ↔ ∀ limit, s.nodeLimit = some limit → size ≤ limit := by
  unfold Fits checkSize
  cases s.nodeLimit with
  | none => simp
  | some limit => by_cases h : limit < size <;> grind

theorem Fits.mono {m n : Nat} (h : s.Fits n) (hmn : m ≤ n) : s.Fits m :=
  fits_iff.2 fun limit hl => hmn.trans (fits_iff.1 h limit hl)

/-- Whether a tree of `m` nodes may grow to `n` nodes; as it is, it is not looked at. -/
def MayGrow (s : Setting) (m n : Nat) : Prop := m < n → s.Fits n

theorem mayGrow_self (n : Nat) : s.MayGrow n n := fun h => absurd h (Nat.lt_irrefl n)

theorem mayGrow_succ {n : Nat} : s.MayGrow n (n + 1) ↔ s.Fits (n + 1) :=
  ⟨fun h => h (Nat.lt_succ_self n), fun h _ => h⟩

theorem mayGrow_trans_iff {l m n : Nat} (hlm : l ≤ m) (hmn : m ≤ n) :
    s.MayGrow l m ∧ s.MayGrow m n ↔ s.MayGrow l n := by
  apply Iff.intro
  · intro hall hln
    obtain ⟨h₁, h₂⟩ := hall
    rcases Nat.lt_or_ge m n with h | h
    · exact h₂ h
    · obtain rfl : m = n := by omega
      exact h₁ hln
  · intro h
    exact ⟨fun hl => (h (by omega)).mono hmn, fun hm => h (by omega)⟩

end Setting

/-! ## Steps -/

namespace Run

variable {α β : Type} {growth after : Growth σ} {site : Site}

theorem pure_eq_ok_iff {a b : α} :
    (pure a : Run σ α) growth = some (.ok b, after) ↔ a = b ∧ growth = after := by
  simp [pure_apply]

theorem bind_eq_ok_iff {m : Run σ α} {f : α → Run σ β} {b : β} :
    (m >>= f) growth = some (.ok b, after) ↔
      ∃ a middle, m growth = some (.ok a, middle) ∧ f a middle = some (.ok b, after) := by
  rw [bind_apply]
  cases m growth with
  | none => simp
  | some ending => obtain ⟨_ | a, middle⟩ := ending <;> simp

theorem bind_eq_some_iff {m : Run σ α} {f : α → Run σ β} {result : Except Failure β} :
    (m >>= f) growth = some (result, after) ↔
      (∃ failure, m growth = some (.error failure, after) ∧ result = .error failure) ∨
        ∃ a middle, m growth = some (.ok a, middle) ∧ f a middle = some (result, after) := by
  rw [bind_apply]
  cases m growth with
  | none => simp
  | some ending =>
      obtain ⟨_ | a, middle⟩ := ending
      · simp [and_comm, eq_comm]
      · simp

theorem endless_apply : (endless : Run σ α) growth = none := rfl

theorem chooseRule_eq_ok_iff {rule : Nat} :
    chooseRule s choose site growth = some (.ok rule, after) ↔
      ∃ options source, s.options site.symbol site.depth = .ok options ∧
        choose site options growth.source = some (rule, source) ∧
          after = ⟨growth.tree, source⟩ := by
  cases h : s.options site.symbol site.depth with
  | error fault => simp [chooseRule_apply_error growth h]
  | ok options =>
      rw [chooseRule_apply_ok growth h, Option.map_eq_some_iff]
      apply Iff.intro
      · intro hall
        obtain ⟨⟨rule', source⟩, hc, heq⟩ := hall
        cases heq
        exact ⟨options, source, rfl, hc, rfl⟩
      · intro hall
        obtain ⟨_, source, heq, hc, rfl⟩ := hall
        cases heq
        exact ⟨(rule, source), hc, rfl⟩

theorem addChild_eq_ok_iff {index : Nat} {token : String} {child : Site} :
    addChild s site index token growth = some (.ok child, after) ↔
      s.Fits (growth.tree.size + 1) ∧ child = site.child index token growth.tree.size ∧
        after = ⟨growth.tree.push token (s.stateOf token), growth.source⟩ := by
  unfold Setting.Fits
  cases h : s.checkSize (growth.tree.size + 1) with
  | error fault => simp [addChild_apply_error site index token h]
  | ok =>
      rw [addChild_apply_ok site index token h]
      simp [eq_comm]

theorem settle_eq_ok_iff {id : Nat} {state : NodeState} {u : Unit} :
    settle id state growth = some (.ok u, after) ↔
      after = ⟨growth.tree.resolve id state, growth.source⟩ := by
  simp [settle_apply, eq_comm]

theorem addChildren_nil_eq_ok_iff {visit : Site → Run σ Unit} {index : Nat} {children : List Site} :
    addChildren s visit site index [] growth = some (.ok children, after) ↔
      children = [] ∧ growth = after := by
  rw [addChildren, pure_eq_ok_iff, eq_comm]

theorem addChildren_cons_eq_ok_iff {visit : Site → Run σ Unit} {index : Nat} {token : String}
    {more : List String} {children : List Site} :
    addChildren s visit site index (token :: more) growth = some (.ok children, after) ↔
      s.Fits (growth.tree.size + 1) ∧ ∃ middle rest,
        visit (site.child index token growth.tree.size)
          ⟨growth.tree.push token (s.stateOf token), growth.source⟩ = some (.ok (), middle) ∧
        addChildren s visit site (index + 1) more middle = some (.ok rest, after) ∧
        children = site.child index token growth.tree.size :: rest := by
  simp only [addChildren, bind_eq_ok_iff, addChild_eq_ok_iff, pure_eq_ok_iff]
  apply Iff.intro
  · intro h
    obtain ⟨child, _, ⟨hfits, rfl, rfl⟩, ⟨⟩, middle, hvisit, rest, _, hrest, rfl, rfl⟩ := h
    exact ⟨hfits, middle, rest, hvisit, hrest, rfl⟩
  · intro h
    obtain ⟨hfits, middle, rest, hvisit, hrest, rfl⟩ := h
    exact ⟨_, _, ⟨hfits, rfl, rfl⟩, (), middle, hvisit, rest, after, hrest, rfl, rfl⟩

end Run

/-! ## The first choice -/

/-- What a derivation draws from is first looked at where a rule is chosen for the root. -/
theorem Setting.grow_eq_of_choose_eq {start : String} {options : Options} {source other : σ}
    (hdefines : s.grammar.defines start = true) (ho : s.options start 0 = .ok options)
    (h : choose (.root start) options source = choose (.root start) options other)
    (strategy : Strategy) :
    s.grow strategy choose start source = s.grow strategy choose start other := by
  have hrule : Run.chooseRule s choose (.root start) ⟨.single start, source⟩ =
      Run.chooseRule s choose (.root start) ⟨.single start, other⟩ := by
    rw [Run.chooseRule_apply_ok _ ho, Run.chooseRule_apply_ok _ ho, h]
  obtain ⟨levels, hlevels⟩ : ∃ levels, s.levels = levels + 1 := ⟨_, rfl⟩
  simp only [grow, hdefines, ↓reduceIte, hlevels]
  cases strategy with
  | levelOrder =>
      simp only [LevelOrder.expandAll, LevelOrder.expandLevel, LevelOrder.expand, Run.bind_apply,
        hrule]
  | depthFirst => simp only [DepthFirst.expand, Run.bind_apply, hrule]

end GrammarSampler

import GrammarSampler.Proofs.Engine.Grow

/-!
# Choices seen through a map

If one chooser draws from more than another does, and chooses as the other does on what they share,
then the two derive the same. So a chooser may keep a record, or carry a proof, without any effect
on the tree.
-/

namespace GrammarSampler

variable {σ τ : Type} {f : τ → σ} {s : Setting} {fine : Chooser τ} {coarse : Chooser σ}

def Growth.map (f : τ → σ) (growth : Growth τ) : Growth σ := ⟨growth.tree, f growth.source⟩

/-- Whether `fine` chooses as `coarse` does on what `f` keeps, wherever the setting lets choose. -/
def Chooser.Over (f : τ → σ) (s : Setting) (fine : Chooser τ) (coarse : Chooser σ) : Prop :=
  ∀ site options source, s.options site.symbol site.depth = .ok options →
    (fine site options source).map (Prod.map id f) = coarse site options (f source)

/-- Whether a step is another step on what `f` keeps. -/
def Run.Over {α : Type} (f : τ → σ) (m : Run τ α) (n : Run σ α) : Prop :=
  ∀ growth, (m growth).map (Prod.map id (Growth.map f)) = n (growth.map f)

namespace Run

variable {α β : Type}

theorem over_pure (a : α) : Over f (pure a : Run τ α) (pure a) := fun _ => rfl

theorem over_endless : Over f (endless : Run τ α) endless := fun _ => rfl

theorem Over.bind {m : Run τ α} {n : Run σ α} {k : α → Run τ β} {l : α → Run σ β}
    (hm : Over f m n) (hk : ∀ a, Over f (k a) (l a)) : Over f (m >>= k) (n >>= l) := by
  intro growth
  rw [bind_apply, bind_apply, ← hm growth]
  cases m growth with
  | none => rfl
  | some ending =>
      obtain ⟨result, after⟩ := ending
      cases result with
      | error failure => rfl
      | ok a => exact hk a after

theorem over_chooseRule (h : fine.Over f s coarse) (site : Site) :
    Over f (chooseRule s fine site) (chooseRule s coarse site) := by
  intro growth
  cases ho : s.options site.symbol site.depth with
  | error fault =>
      rw [chooseRule_apply_error growth ho, chooseRule_apply_error (growth.map f) ho]
      rfl
  | ok options =>
      have hchoose := h site options growth.source ho
      rw [chooseRule_apply_ok growth ho, chooseRule_apply_ok (growth.map f) ho]
      simp only [Growth.map, ← hchoose, Option.map_map]
      rfl

theorem over_addChild (parent : Site) (index : Nat) (token : String) :
    Over f (addChild s parent index token : Run τ Site) (addChild s parent index token) := by
  intro growth
  cases h : s.checkSize (growth.tree.size + 1) with
  | error fault =>
      have hmap : s.checkSize ((growth.map f).tree.size + 1) = .error fault := h
      rw [addChild_apply_error parent index token h, addChild_apply_error parent index token hmap]
      rfl
  | ok =>
      have hmap : s.checkSize ((growth.map f).tree.size + 1) = .ok () := h
      rw [addChild_apply_ok parent index token h, addChild_apply_ok parent index token hmap]
      rfl

theorem over_addChildren {visit : Site → Run τ Unit} {seen : Site → Run σ Unit}
    (h : ∀ child, Over f (visit child) (seen child)) (parent : Site) (tokens : List String)
    (index : Nat) :
    Over f (addChildren s visit parent index tokens) (addChildren s seen parent index tokens) := by
  induction tokens generalizing index with
  | nil => exact over_pure []
  | cons token tokens ih =>
      exact (over_addChild parent index token).bind fun child =>
        (h child).bind fun _ => (ih (index + 1)).bind fun rest => over_pure (child :: rest)

theorem over_settle (id : Nat) (state : NodeState) :
    Over f (settle id state : Run τ Unit) (settle id state) := fun _ => rfl

end Run

open Run

theorem DepthFirst.over_expand (h : fine.Over f s coarse) (levels : Nat) (site : Site) :
    Over f (expand s fine levels site) (expand s coarse levels site) := by
  induction levels generalizing site with
  | zero => exact over_endless
  | succ levels ih =>
      refine (over_chooseRule h site).bind fun rule => ?_
      refine (over_addChildren (fun child => ?_) site _ 0).bind fun _ => over_settle _ _
      cases s.grammar.defines child.symbol with
      | false => exact over_pure ()
      | true => exact ih child

namespace LevelOrder

theorem over_expand (h : fine.Over f s coarse) (site : Site) :
    Over f (expand s fine site) (expand s coarse site) := by
  refine (over_chooseRule h site).bind fun rule => ?_
  refine (over_addChildren (fun _ => over_pure ()) site _ 0).bind fun children => ?_
  exact (over_settle _ _).bind fun _ => over_pure _

theorem over_expandLevel (h : fine.Over f s coarse) (sites : List Site) :
    Over f (expandLevel s fine sites) (expandLevel s coarse sites) := by
  induction sites with
  | nil => exact over_pure []
  | cons site more ih =>
      exact (over_expand h site).bind fun next => ih.bind fun rest => over_pure (next ++ rest)

theorem over_expandAll (h : fine.Over f s coarse) (levels : Nat) (sites : List Site) :
    Over f (expandAll s fine levels sites) (expandAll s coarse levels sites) := by
  induction levels generalizing sites with
  | zero =>
      cases sites with
      | nil => exact over_pure ()
      | cons site more => exact over_endless
  | succ levels ih =>
      cases sites with
      | nil => exact over_pure ()
      | cons site more => exact (over_expandLevel h (site :: more)).bind fun next => ih next

end LevelOrder

theorem Setting.map_grow (h : fine.Over f s coarse) (strategy : Strategy) (start : String)
    (source : τ) :
    (s.grow strategy fine start source).map (Prod.map id (Growth.map f)) =
      s.grow strategy coarse start (f source) := by
  cases hd : s.grammar.defines start with
  | false =>
      rw [grow_of_not_defines hd, grow_of_not_defines hd]
      exact over_settle _ _ _
  | true =>
      cases strategy with
      | depthFirst =>
          rw [grow_depthFirst hd, grow_depthFirst hd]
          exact DepthFirst.over_expand h _ _ _
      | levelOrder =>
          rw [grow_levelOrder hd, grow_levelOrder hd]
          exact LevelOrder.over_expandAll h _ _ _

end GrammarSampler

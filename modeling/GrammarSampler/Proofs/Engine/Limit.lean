import GrammarSampler.Proofs.Engine.Expansions
import GrammarSampler.Proofs.Engine.Moments
import GrammarSampler.Proofs.Engine.Valid

/-!
# The limit of nodes

A derivation under a limit does what it does without one, until its tree has too many nodes. Whether
it comes to that is seen from the size of the tree that the derivation without a limit ends with,
because trees only grow.
-/

namespace GrammarSampler

variable {σ : Type} {s : Setting} {choose : Chooser σ}

/-! ## Sizes that are too large -/

namespace Setting

def unlimited (s : Setting) : Setting := { s with nodeLimit := none }

theorem exists_checkSize_eq_error {size : Nat} (h : ¬ s.Fits size) :
    ∃ limit, s.nodeLimit = some limit ∧ s.checkSize size = .error (.nodeLimit limit) := by
  unfold Fits checkSize at *
  cases hl : s.nodeLimit with
  | none => simp [hl] at h
  | some limit =>
      by_cases hlt : limit < size
      · exact ⟨limit, rfl, if_pos hlt⟩
      · simp [hl, hlt] at h

theorem mayGrow_iff {limit m n : Nat} (h : s.nodeLimit = some limit) :
    s.MayGrow m n ↔ n ≤ max limit m := by
  simp only [MayGrow, fits_iff, h, Option.some.injEq, forall_eq']
  omega

end Setting

/-! ## Steps -/

namespace Run

variable {α β : Type}

/-- Whether a step has stopped because of the limit. -/
def Exceeds (s : Setting) (ending : Option (Except Failure α × Growth σ)) : Prop :=
  ∃ limit site after, s.nodeLimit = some limit ∧
    ending = some (.error ⟨.nodeLimit limit, site⟩, after)

/-- Whether `m` is the step `free` under the limit of `s`: it is the same step as long as the tree
that `free` leaves behind is not too large, and otherwise it stops. -/
structure Curbs (s : Setting) (m free : Run σ α) : Prop where
  size_le : ∀ growth result after, free growth = some (result, after) →
    growth.tree.size ≤ after.tree.size
  agrees : ∀ growth,
    (m growth = free growth ∧ ∀ result after, free growth = some (result, after) →
      s.MayGrow growth.tree.size after.tree.size) ∨
    (Exceeds s (m growth) ∧ ∀ result after, free growth = some (result, after) →
      ¬ s.MayGrow growth.tree.size after.tree.size)

/-- A step that leaves the size of the tree as it is does the same under any limit. -/
theorem KeepsSize.curbs {m : Run σ α} (h : KeepsSize m) : Curbs s m m where
  size_le growth result after hrun := (h growth result after hrun).ge
  agrees growth := by
    refine .inl ⟨rfl, fun result after hrun => ?_⟩
    rw [h growth result after hrun]
    exact Setting.mayGrow_self _

theorem curbs_pure (a : α) : Curbs s (pure a : Run σ α) (pure a) := (keepsSize_pure a).curbs

theorem curbs_endless : Curbs s (endless : Run σ α) endless :=
  KeepsSize.curbs fun _ _ _ hrun => nomatch hrun

theorem curbs_settle (id : Nat) (state : NodeState) :
    Curbs s (settle id state : Run σ Unit) (settle id state) :=
  (keepsSize_settle id state).curbs

theorem curbs_chooseRule (site : Site) :
    Curbs s (chooseRule s choose site) (chooseRule s.unlimited choose site) :=
  (keepsSize_chooseRule (s := s) site).curbs

/-- A child is always added; under the limit it may be the one that is too many. -/
theorem curbs_addChild (parent : Site) (index : Nat) (token : String) :
    Curbs s (addChild s parent index token : Run σ Site)
      (addChild s.unlimited parent index token) := by
  have hfree : ∀ growth : Growth σ, addChild s.unlimited parent index token growth = some
      (.ok (parent.child index token growth.tree.size),
        { growth with tree := growth.tree.push token (s.stateOf token) }) :=
    fun growth => addChild_apply_ok parent index token rfl
  constructor
  · intro growth result after hrun
    rw [hfree] at hrun
    cases hrun
    simp
  · intro growth
    simp only [hfree, Option.some.injEq, Prod.mk.injEq, and_imp]
    by_cases hfits : s.Fits (growth.tree.size + 1)
    · refine .inl ⟨addChild_apply_ok parent index token hfits, ?_⟩
      rintro _ _ - rfl
      rw [Tree.size_push]
      exact Setting.mayGrow_succ.2 hfits
    · obtain ⟨limit, hl, herror⟩ := Setting.exists_checkSize_eq_error hfits
      refine .inr ⟨⟨limit, parent, _, hl, addChild_apply_error parent index token herror⟩, ?_⟩
      rintro _ _ - rfl
      rwa [Tree.size_push, Setting.mayGrow_succ]

theorem Exceeds.bind {m : Run σ α} {growth : Growth σ} (h : Exceeds s (m growth))
    (k : α → Run σ β) : Exceeds s ((m >>= k) growth) := by
  obtain ⟨limit, site, after, hl, hrun⟩ := h
  exact ⟨limit, site, after, hl, by rw [bind_apply, hrun]; rfl⟩

/-- The sizes of the trees before, between and after two steps only go up, so a limit that is kept
at the end has been kept in between. -/
theorem Curbs.bind {m free : Run σ α} {k l : α → Run σ β} (hm : Curbs s m free)
    (hk : ∀ a, Curbs s (k a) (l a)) : Curbs s (m >>= k) (free >>= l) := by
  constructor
  · intro growth result after hrun
    obtain ⟨failure, hfirst, -⟩ | ⟨a, middle, hfirst, hrest⟩ := bind_eq_some_iff.1 hrun
    · exact hm.size_le growth _ after hfirst
    · exact (hm.size_le growth _ middle hfirst).trans ((hk a).size_le middle result after hrest)
  · intro growth
    obtain ⟨heq, hkeeps⟩ | ⟨hstop, hlarge⟩ := hm.agrees growth
    · rw [bind_apply, bind_apply, heq]
      cases hfirst : free growth with
      | none => exact .inl ⟨rfl, fun _ _ hrun => nomatch hrun⟩
      | some ending =>
          obtain ⟨_ | a, middle⟩ := ending
          · refine .inl ⟨rfl, fun result after hrun => ?_⟩
            cases hrun
            exact hkeeps _ middle hfirst
          · have hle := hm.size_le growth _ middle hfirst
            have hmay := hkeeps _ middle hfirst
            obtain ⟨hsame, hmore⟩ | ⟨hstop, hlarge⟩ := (hk a).agrees middle
            · refine .inl ⟨hsame, fun result after hrest => ?_⟩
              have hrise := (hk a).size_le middle result after hrest
              exact (Setting.mayGrow_trans_iff hle hrise).1 ⟨hmay, hmore result after hrest⟩
            · refine .inr ⟨hstop, fun result after hrest hall => ?_⟩
              have hrise := (hk a).size_le middle result after hrest
              exact hlarge result after hrest ((Setting.mayGrow_trans_iff hle hrise).2 hall).2
    · refine .inr ⟨hstop.bind k, fun result after hrun => ?_⟩
      obtain ⟨failure, hfirst, -⟩ | ⟨a, middle, hfirst, hrest⟩ := bind_eq_some_iff.1 hrun
      · exact hlarge _ after hfirst
      · intro hmay
        have hle := hm.size_le growth _ middle hfirst
        have hmore := (hk a).size_le middle result after hrest
        exact hlarge _ middle hfirst ((Setting.mayGrow_trans_iff hle hmore).2 hmay).1

theorem curbs_addChildren {visit seen : Site → Run σ Unit}
    (h : ∀ child, Curbs s (visit child) (seen child)) (parent : Site) (tokens : List String)
    (index : Nat) :
    Curbs s (addChildren s visit parent index tokens)
      (addChildren s.unlimited seen parent index tokens) := by
  induction tokens generalizing index with
  | nil => exact curbs_pure []
  | cons token tokens ih =>
      exact (curbs_addChild parent index token).bind fun child =>
        (h child).bind fun _ => (ih (index + 1)).bind fun rest => curbs_pure (child :: rest)

end Run

open Run

/-! ## The orders -/

theorem DepthFirst.curbs_expand (levels : Nat) (site : Site) :
    Curbs s (expand s choose levels site) (expand s.unlimited choose levels site) := by
  induction levels generalizing site with
  | zero => exact curbs_endless
  | succ levels ih =>
      refine (curbs_chooseRule site).bind fun rule => ?_
      refine (curbs_addChildren (fun child => ?_) site _ 0).bind fun _ => curbs_settle _ _
      have hsame : s.unlimited.grammar = s.grammar := rfl
      rw [hsame]
      cases s.grammar.defines child.symbol with
      | false => exact curbs_pure ()
      | true => exact ih child

namespace LevelOrder

theorem curbs_expand (site : Site) :
    Curbs s (expand s choose site) (expand s.unlimited choose site) := by
  refine (curbs_chooseRule site).bind fun rule => ?_
  refine (curbs_addChildren (fun _ => curbs_pure ()) site _ 0).bind fun children => ?_
  exact (curbs_settle _ _).bind fun _ => curbs_pure _

theorem curbs_expandLevel (sites : List Site) :
    Curbs s (expandLevel s choose sites) (expandLevel s.unlimited choose sites) := by
  induction sites with
  | nil => exact curbs_pure []
  | cons site more ih =>
      exact (curbs_expand site).bind fun next => ih.bind fun rest => curbs_pure (next ++ rest)

theorem curbs_expandAll (levels : Nat) (sites : List Site) :
    Curbs s (expandAll s choose levels sites) (expandAll s.unlimited choose levels sites) := by
  induction levels generalizing sites with
  | zero =>
      cases sites with
      | nil => exact curbs_pure ()
      | cons site more => exact curbs_endless
  | succ levels ih =>
      cases sites with
      | nil => exact curbs_pure ()
      | cons site more => exact (curbs_expandLevel (site :: more)).bind fun next => ih next

end LevelOrder

/-! ## Runs -/

namespace Setting

variable {strategy : Strategy} {start : String} {source : σ} {limit : Nat}

theorem grow_curbed (strategy : Strategy) (start : String) (source : σ) :
    (s.grow strategy choose start source = s.unlimited.grow strategy choose start source ∧
      ∀ result after, s.unlimited.grow strategy choose start source = some (result, after) →
        s.MayGrow 1 after.tree.size) ∨
    (Exceeds s (s.grow strategy choose start source) ∧
      ∀ result after, s.unlimited.grow strategy choose start source = some (result, after) →
        ¬ s.MayGrow 1 after.tree.size) := by
  cases hd : s.grammar.defines start with
  | false =>
      have hfree : s.unlimited.grammar.defines start = false := hd
      rw [grow_of_not_defines hd, grow_of_not_defines hfree]
      exact (curbs_settle _ _).agrees _
  | true =>
      have hfree : s.unlimited.grammar.defines start = true := hd
      cases strategy with
      | depthFirst =>
          rw [grow_depthFirst hd, grow_depthFirst hfree]
          exact (DepthFirst.curbs_expand _ _).agrees _
      | levelOrder =>
          rw [grow_levelOrder hd, grow_levelOrder hfree]
          exact (LevelOrder.curbs_expandAll _ _).agrees _

/-- A derivation that ends with a tree of a size that is allowed ends so under the limit too, and
one that ends with more nodes stops. -/
theorem grow_limited {result : Except Failure Unit} {after : Growth σ}
    (hlimit : s.nodeLimit = some limit)
    (hrun : s.unlimited.grow strategy choose start source = some (result, after)) :
    (after.tree.size ≤ max limit 1 →
      s.grow strategy choose start source = some (result, after)) ∧
    (max limit 1 < after.tree.size → ∃ site last,
      s.grow strategy choose start source = some (.error ⟨.nodeLimit limit, site⟩, last)) := by
  rw [← Nat.not_le, ← mayGrow_iff hlimit]
  obtain ⟨hsame, hmay⟩ | ⟨⟨other, site, last, hother, hstop⟩, hlarge⟩ :=
    @grow_curbed σ s choose strategy start source
  · exact ⟨fun _ => hsame.trans hrun, fun hnot => absurd (hmay result after hrun) hnot⟩
  · rw [hlimit, Option.some.injEq] at hother
    subst hother
    exact ⟨fun hmay => absurd hmay (hlarge result after hrun), fun _ => ⟨site, last, hstop⟩⟩

theorem grow_limited_eq_ok_iff {after : Growth σ} (hlimit : s.nodeLimit = some limit) :
    s.grow strategy choose start source = some (.ok (), after) ↔
      s.unlimited.grow strategy choose start source = some (.ok (), after) ∧
        after.tree.size ≤ max limit 1 := by
  apply Iff.intro
  · intro hrun
    obtain ⟨hsame, hmay⟩ | ⟨⟨other, site, last, -, hstop⟩, -⟩ :=
      @grow_curbed σ s choose strategy start source
    · rw [hsame] at hrun
      exact ⟨hrun, (mayGrow_iff hlimit).1 (hmay _ after hrun)⟩
    · rw [hstop] at hrun
      cases hrun
  · intro h
    exact (grow_limited hlimit h.1).1 h.2

end Setting

theorem derive_of_grow_eq_error {g : Grammar} {strategy : Strategy} {nodeLimit : Option Nat}
    {start : String} {maxDepth : Nat} {source : Source} {failure : Failure} {last : Growth Source}
    (h : (strategy.setting g maxDepth nodeLimit).grow strategy Source.choose start source =
      some (.error failure, last)) :
    derive g (.ofGrammar g) strategy nodeLimit start maxDepth source =
      some (.error failure.fault, last.source) :=
  derive_eq_some_iff.2 ⟨.error failure, last.tree, h, rfl⟩

/-- A limit of nodes is transparent: it changes nothing unless the tree that is derived without it
has too many nodes, and then there is never more than one node too many. -/
theorem node_limit_transparent (g : Grammar) (strategy : Strategy) (start : String)
    (maxDepth limit : Nat) :
    (∀ (σ : Type) (choose : Chooser σ) (source : σ),
      (∀ result after, (strategy.setting g maxDepth none).grow strategy choose start source =
          some (result, after) →
        (after.tree.size ≤ max limit 1 →
          (strategy.setting g maxDepth (some limit)).grow strategy choose start source =
            some (result, after)) ∧
        (max limit 1 < after.tree.size → ∃ site last,
          (strategy.setting g maxDepth (some limit)).grow strategy choose start source =
            some (.error ⟨.nodeLimit limit, site⟩, last))) ∧
      (∀ moment, Moment.Leads (strategy.setting g maxDepth (some limit)) strategy choose
          (.start (strategy.setting g maxDepth (some limit)) start source) moment →
        moment.2.tree.size ≤ max limit 1 + 1) ∧
      ∀ result after, (strategy.setting g maxDepth (some limit)).grow strategy choose start source =
          some (result, after) →
        Moment.Leads (strategy.setting g maxDepth (some limit)) strategy choose
          (.start (strategy.setting g maxDepth (some limit)) start source)
          (result.map fun _ => [], after)) ∧
    ∀ source : Source,
      (∀ tree after, derive g (.ofGrammar g) strategy none start maxDepth source =
          some (.ok tree, after) →
        (tree.size ≤ max limit 1 →
          derive g (.ofGrammar g) strategy (some limit) start maxDepth source =
            some (.ok tree, after)) ∧
        (max limit 1 < tree.size → ∃ last,
          derive g (.ofGrammar g) strategy (some limit) start maxDepth source =
            some (.error (.nodeLimit limit), last))) ∧
      ∀ fault after, derive g (.ofGrammar g) strategy none start maxDepth source =
          some (.error fault, after) →
        derive g (.ofGrammar g) strategy (some limit) start maxDepth source =
            some (.error fault, after) ∨
          ∃ last, derive g (.ofGrammar g) strategy (some limit) start maxDepth source =
            some (.error (.nodeLimit limit), last) := by
  constructor
  · intro σ choose source
    refine ⟨fun result after => ?_, fun moment hleads => ?_, fun _ _ => Setting.leads_of_grow⟩
    · exact Setting.grow_limited (s := strategy.setting g maxDepth (some limit)) rfl
    · exact (Moment.within_of_leads rfl hleads).size_le
  · intro source
    constructor
    · intro tree after hderive
      obtain ⟨hsame, hlarge⟩ := Setting.grow_limited
        (s := strategy.setting g maxDepth (some limit)) rfl (derive_eq_ok_iff.1 hderive)
      refine ⟨fun hsize => derive_eq_ok_iff.2 (hsame hsize), fun hsize => ?_⟩
      obtain ⟨site, last, hstop⟩ := hlarge hsize
      exact ⟨last.source, derive_of_grow_eq_error hstop⟩
    · intro fault after hderive
      obtain ⟨ending, tree, hrun, hending⟩ := derive_eq_some_iff.1 hderive
      obtain ⟨hsame, hlarge⟩ := Setting.grow_limited
        (s := strategy.setting g maxDepth (some limit)) rfl hrun
      rcases Nat.lt_or_ge (max limit 1) tree.size with hsize | hsize
      · obtain ⟨site, last, hstop⟩ := hlarge hsize
        exact .inr ⟨last.source, derive_of_grow_eq_error hstop⟩
      · exact .inl (derive_eq_some_iff.2 ⟨ending, tree, hsame hsize, hending⟩)

theorem node_limit_transparent_examples :
    (derive .nested (.ofGrammar .nested) .levelOrder none "<s>" 0
        (.ofScript [9223372036854775808]) = some (.ok .nested, ⟨.script [], 1, 1⟩) ∧
      derive .nested (.ofGrammar .nested) .levelOrder (some 5) "<s>" 0
        (.ofScript [9223372036854775808]) = some (.ok .nested, ⟨.script [], 1, 1⟩) ∧
      ∃ last, derive .nested (.ofGrammar .nested) .levelOrder (some 4) "<s>" 0
        (.ofScript [9223372036854775808]) = some (.error (.nodeLimit 4), last)) ∧
    (∃ site last, (Strategy.levelOrder.setting .nested 0 (some 4)).grow .levelOrder Source.choose
        "<s>" (.ofScript [9223372036854775808]) = some (.error ⟨.nodeLimit 4, site⟩, last) ∧
      last.tree.size ≤ 5) ∧
    derive .doubling (.ofGrammar .doubling) .depthFirst none "<a>" 1 (.ofScript []) =
        some (.error (.unproductive "<a>"), ⟨.script [], 0, 2⟩) ∧
      (derive .doubling (.ofGrammar .doubling) .depthFirst (some 3) "<a>" 1 (.ofScript []) =
          some (.error (.unproductive "<a>"), ⟨.script [], 0, 2⟩) ∨
        ∃ last, derive .doubling (.ofGrammar .doubling) .depthFirst (some 3) "<a>" 1
          (.ofScript []) = some (.error (.nodeLimit 3), last)) := by
  have hnested : derive .nested (.ofGrammar .nested) .levelOrder none "<s>" 0
      (.ofScript [9223372036854775808]) = some (.ok .nested, ⟨.script [], 1, 1⟩) := by
    decide +kernel
  have hdoubling : derive .doubling (.ofGrammar .doubling) .depthFirst none "<a>" 1
      (.ofScript []) = some (.error (.unproductive "<a>"), ⟨.script [], 0, 2⟩) := by
    decide +kernel
  obtain ⟨-, hfive⟩ := node_limit_transparent .nested .levelOrder "<s>" 0 5
  obtain ⟨hmoments, hfour⟩ := node_limit_transparent .nested .levelOrder "<s>" 0 4
  obtain ⟨-, hthree⟩ := node_limit_transparent .doubling .depthFirst "<a>" 1 3
  obtain ⟨hgrow, hwithin, hends⟩ :=
    hmoments Source Source.choose (.ofScript [9223372036854775808])
  obtain ⟨site, last, hstop⟩ := (hgrow _ _ (derive_eq_ok_iff.1 hnested)).2 (by decide)
  have hsame := ((hfive _).1 _ _ hnested).1 (by decide)
  have hlarge := ((hfour _).1 _ _ hnested).2 (by decide)
  exact ⟨⟨hnested, hsame, hlarge⟩, ⟨site, last, hstop, hwithin _ (hends _ _ hstop)⟩, hdoubling,
    (hthree _).2 _ _ hdoubling⟩

end GrammarSampler

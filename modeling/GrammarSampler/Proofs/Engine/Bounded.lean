import GrammarSampler.Proofs.Engine.Answers
import GrammarSampler.Proofs.Engine.Meets

/-!
# Bounded runs

How many choices a derivation makes, and at which sites it can fail. Every rule lowers the rank of
the sites that wait, so the choices are counted level by level.
-/

namespace GrammarSampler

variable {σ : Type} {s : Setting} {choose : Chooser σ}

/-- The chooser that also counts its choices. -/
def Chooser.counted (choose : Chooser σ) : Chooser (σ × Nat) := fun site options now =>
  (choose site options now.1).map fun (rule, after) => (rule, after, now.2 + 1)

theorem Chooser.over_counted (choose : Chooser σ) (s : Setting) :
    choose.counted.Over Prod.fst s choose := by
  intro site options now _
  rw [counted, Option.map_map]
  cases choose site options now.1 with
  | none => rfl
  | some _ => rfl

theorem Chooser.Obeys.counted (hobeys : choose.Obeys s) : choose.counted.Obeys s := by
  intro site options now rule after ho hchoose
  obtain ⟨⟨other, later⟩, hother, heq⟩ := Option.map_eq_some_iff.1 hchoose
  cases heq
  exact hobeys site options now.1 rule later ho hother

/-! ## Steps -/

namespace Run

variable {α β : Type} {n k : Nat} {p : Failure → Prop} {q : α → Prop} {r : β → Prop}

/-- Whether a result is a failure of which `p` holds, or a value of which `q` holds. -/
def Gives (p : Failure → Prop) (q : α → Prop) : Except Failure α → Prop
  | .error failure => p failure
  | .ok a => q a

/-- Whether a step that ends has made at most `n` choices, and its result is as `p` and `q` say. -/
def Bounded (m : Run (σ × Nat) α) (n : Nat) (p : Failure → Prop) (q : α → Prop) : Prop :=
  ∀ growth result after, m growth = some (result, after) →
    after.source.2 ≤ growth.source.2 + n ∧ Gives p q result

theorem Bounded.mono {m : Run (σ × Nat) α} (h : m.Bounded n p q) (hnk : n ≤ k) :
    m.Bounded k p q := by
  intro growth result after hrun
  obtain ⟨hcount, hresult⟩ := h growth result after hrun
  exact ⟨hcount.trans (Nat.add_le_add_left hnk _), hresult⟩

theorem bounded_pure {a : α} (h : q a) : (pure a : Run (σ × Nat) α).Bounded 0 p q := by
  intro growth result after hrun
  cases hrun
  exact ⟨Nat.le_refl _, h⟩

theorem Bounded.bind {m : Run (σ × Nat) α} {f : α → Run (σ × Nat) β} (hm : m.Bounded n p q)
    (hf : ∀ a, q a → (f a).Bounded k p r) : (m >>= f).Bounded (n + k) p r := by
  intro growth result after hrun
  obtain ⟨failure, hfirst, rfl⟩ | ⟨a, middle, hfirst, hrest⟩ := bind_eq_some_iff.1 hrun
  · obtain ⟨hcount, hresult⟩ := hm growth _ after hfirst
    exact ⟨hcount.trans (Nat.add_le_add_left (Nat.le_add_right n k) _), hresult⟩
  · obtain ⟨hcount, hresult⟩ := hm growth _ middle hfirst
    obtain ⟨hmore, hlast⟩ := hf a hresult middle result after hrest
    exact ⟨by omega, hlast⟩

theorem bounded_endless : (endless : Run (σ × Nat) α).Bounded n p q :=
  fun _ _ _ hrun => nomatch hrun

theorem bounded_settle (id : Nat) (state : NodeState) :
    (settle id state : Run (σ × Nat) Unit).Bounded 0 p fun _ => True := by
  intro growth result after hrun
  rw [settle_apply] at hrun
  cases hrun
  exact ⟨Nat.le_refl _, trivial⟩

theorem bounded_chooseRule {site : Site} (hobeys : choose.Obeys s)
    (hfail : ∀ fault, s.options site.symbol site.depth = .error fault → p ⟨fault, site⟩) :
    (chooseRule s choose.counted site).Bounded 1 p fun rule =>
      ∃ options, s.options site.symbol site.depth = .ok options ∧ options.Allows rule := by
  intro growth result after hrun
  cases ho : s.options site.symbol site.depth with
  | error fault =>
      rw [chooseRule_apply_error growth ho] at hrun
      cases hrun
      exact ⟨Nat.le_succ _, hfail fault ho⟩
  | ok options =>
      rw [chooseRule_apply_ok growth ho, Option.map_eq_some_iff] at hrun
      obtain ⟨⟨rule, later⟩, hchoose, heq⟩ := hrun
      cases heq
      have hrule := hobeys.counted site options growth.source rule later ho hchoose
      obtain ⟨_, -, hlater⟩ := Option.map_eq_some_iff.1 hchoose
      cases hlater
      exact ⟨Nat.le_refl _, options, rfl, hrule⟩

theorem bounded_addChild {site : Site} (index : Nat) (token : String)
    (hfail : ∀ size fault, s.checkSize size = .error fault → p ⟨fault, site⟩) :
    (addChild s site index token : Run (σ × Nat) Site).Bounded 0 p fun child =>
      ∃ id, child = site.child index token id := by
  intro growth result after hrun
  cases h : s.checkSize (growth.tree.size + 1) with
  | error fault =>
      rw [addChild_apply_error site index token h] at hrun
      cases hrun
      exact ⟨Nat.le_refl _, hfail _ fault h⟩
  | ok =>
      rw [addChild_apply_ok site index token h] at hrun
      cases hrun
      exact ⟨Nat.le_refl _, _, rfl⟩

theorem bounded_addChildren {visit : Site → Run (σ × Nat) Unit} {site : Site}
    {tokens : List String} {index : Nat}
    (hfail : ∀ size fault, s.checkSize size = .error fault → p ⟨fault, site⟩)
    (hvisit : ∀ child, ChildOf site index tokens child → (visit child).Bounded n p fun _ => True) :
    (addChildren s visit site index tokens).Bounded (tokens.length * n) p fun children =>
      children.length = tokens.length ∧ ∀ child ∈ children, ChildOf site index tokens child := by
  induction tokens generalizing index with
  | nil => exact (bounded_pure (by simp)).mono (Nat.zero_le _)
  | cons token tokens ih =>
      have hsum : (token :: tokens).length * n = 0 + (n + (tokens.length * n + 0)) := by
        rw [List.length_cons, Nat.succ_mul]
        omega
      rw [hsum]
      refine (bounded_addChild index token hfail).bind fun child hc => ?_
      obtain ⟨id, rfl⟩ := hc
      refine (hvisit _ (.head site index token id tokens)).bind fun _ _ => ?_
      have hmore := @ih (index + 1) fun child hc => hvisit child (hc.cons token)
      refine hmore.bind fun rest hrest => bounded_pure ⟨by simp [hrest.1], ?_⟩
      refine List.forall_mem_cons.2 ⟨.head site index token id tokens, fun child hc => ?_⟩
      exact (hrest.2 child hc).cons token

end Run

/-! ## Levels -/

open Run

/-- The most expansions on so many levels, where a rule has at most `width` tokens. -/
def mostWithin (width levels : Nat) : Nat := ∑ level ∈ Finset.range levels, width ^ level

theorem mostWithin_succ (width levels : Nat) :
    mostWithin width (levels + 1) = 1 + width * mostWithin width levels := by
  rw [mostWithin, Finset.sum_range_succ', mostWithin, Finset.mul_sum, Nat.add_comm, pow_zero]
  simp only [pow_succ, Nat.mul_comm]

variable {rank : Nat → String → Nat} {width bound : Nat} {start : String}

/-- What the choices of a setting keep to: no rule has more than `width` tokens, and every rule that
may be chosen lowers the rank. -/
structure Setting.Narrow (s : Setting) (rank : Nat → String → Nat) (width : Nat) : Prop where
  ranks : s.Ranks rank
  length_le : ∀ symbol rule, (s.tokens symbol rule).length ≤ width

/-- Whether a site is met, and has a rank below `bound`. -/
def Setting.Waits (s : Setting) (rank : Nat → String → Nat) (start : String) (bound : Nat)
    (site : Site) : Prop :=
  s.Meets start site ∧ rank site.depth site.symbol < bound

theorem Setting.Waits.child (hnarrow : s.Narrow rank width) {parent child : Site}
    (h : s.Waits rank start (bound + 1) parent) {rule : Nat}
    (hrule : ∃ options, s.options parent.symbol parent.depth = .ok options ∧ options.Allows rule)
    (hchild : ChildOf parent 0 (s.tokens parent.symbol rule) child)
    (hd : s.grammar.defines child.symbol = true) : s.Waits rank start bound child := by
  obtain ⟨options, ho, hrule⟩ := hrule
  refine ⟨.child h.1 ho hrule hchild hd, ?_⟩
  obtain ⟨place, token, id, htoken, rfl⟩ := hchild
  have hdown := hnarrow.ranks _ _ options rule ho hrule token (List.mem_of_getElem? htoken) hd
  exact Nat.lt_of_lt_of_le hdown (Nat.le_of_lt_succ h.2)

theorem DepthFirst.bounded_expand (hobeys : choose.Obeys s) (hnarrow : s.Narrow rank width)
    {levels : Nat} {site : Site} (h : s.Waits rank start bound site) :
    (expand s choose.counted levels site).Bounded (mostWithin width bound) (s.Stops start)
      fun _ => True := by
  induction levels generalizing site bound with
  | zero => exact bounded_endless
  | succ levels ih =>
      cases bound with
      | zero => exact absurd h.2 (Nat.not_lt_zero _)
      | succ bound =>
          rw [mostWithin_succ]
          have hchoose := bounded_chooseRule (p := s.Stops start) hobeys
            fun fault hf => ⟨h.1, .inl hf⟩
          refine hchoose.bind fun rule hrule => ?_
          have hvisit : ∀ child, ChildOf site 0 (s.tokens site.symbol rule) child →
              Bounded (if s.grammar.defines child.symbol then
                expand s choose.counted levels child else pure ())
                (mostWithin width bound) (s.Stops start) fun _ => True := by
            intro child hc
            cases hd : s.grammar.defines child.symbol with
            | false => exact (bounded_pure trivial).mono (Nat.zero_le _)
            | true => exact ih (h.child hnarrow hrule hc hd)
          have hchildren := bounded_addChildren (fun size fault hf => ⟨h.1, .inr ⟨size, hf⟩⟩) hvisit
          have hfew := hchildren.mono
            (Nat.mul_le_mul_right (mostWithin width bound) (hnarrow.length_le site.symbol rule))
          exact hfew.bind fun children _ => bounded_settle _ _

namespace LevelOrder

theorem bounded_expand (hobeys : choose.Obeys s) (hnarrow : s.Narrow rank width) {site : Site}
    (h : s.Waits rank start (bound + 1) site) :
    (expand s choose.counted site).Bounded 1 (s.Stops start) fun next =>
      next.length ≤ width ∧ ∀ child ∈ next, s.Waits rank start bound child := by
  have hchoose := bounded_chooseRule (p := s.Stops start) hobeys fun fault hf => ⟨h.1, .inl hf⟩
  refine hchoose.bind (k := 0) fun rule hrule => ?_
  have hchildren := @bounded_addChildren σ s 0 (s.Stops start) (fun _ => pure ()) site
    (s.tokens site.symbol rule) 0 (fun size fault hf => ⟨h.1, .inr ⟨size, hf⟩⟩)
    fun child _ => bounded_pure trivial
  rw [Nat.mul_zero] at hchildren
  refine hchildren.bind (k := 0) fun children hc => ?_
  refine (bounded_settle _ _).bind (k := 0) fun _ _ => bounded_pure ⟨?_, ?_⟩
  · calc (children.filter (s.grammar.defines ·.symbol)).length ≤ children.length :=
          List.length_filter_le _ _
      _ = (s.tokens site.symbol rule).length := hc.1
      _ ≤ width := hnarrow.length_le _ _
  · intro child hchild
    obtain ⟨hmem, hd⟩ := List.mem_filter.1 hchild
    exact h.child hnarrow hrule (hc.2 child hmem) hd

theorem bounded_expandLevel (hobeys : choose.Obeys s) (hnarrow : s.Narrow rank width)
    {sites : List Site} (h : ∀ site ∈ sites, s.Waits rank start (bound + 1) site) :
    (expandLevel s choose.counted sites).Bounded sites.length (s.Stops start) fun next =>
      next.length ≤ sites.length * width ∧ ∀ child ∈ next, s.Waits rank start bound child := by
  induction sites with
  | nil => exact bounded_pure (by simp)
  | cons site more ih =>
      obtain ⟨hsite, hmore⟩ := List.forall_mem_cons.1 h
      rw [List.length_cons, Nat.add_comm]
      refine (bounded_expand hobeys hnarrow hsite).bind fun next hnext => ?_
      refine (ih hmore).bind (k := 0) fun rest hrest => bounded_pure ⟨?_, ?_⟩
      · rw [List.length_append, Nat.add_mul, Nat.one_mul]
        exact Nat.add_le_add hnext.1 hrest.1
      · exact List.forall_mem_append.2 ⟨hnext.2, hrest.2⟩

theorem bounded_expandAll (hobeys : choose.Obeys s) (hnarrow : s.Narrow rank width)
    {levels : Nat} {sites : List Site} (h : ∀ site ∈ sites, s.Waits rank start bound site) :
    (expandAll s choose.counted levels sites).Bounded (sites.length * mostWithin width bound)
      (s.Stops start) fun _ => True := by
  induction levels generalizing sites bound with
  | zero =>
      cases sites with
      | nil => exact (bounded_pure trivial).mono (Nat.zero_le _)
      | cons site more => exact bounded_endless
  | succ levels ih =>
      cases sites with
      | nil => exact (bounded_pure trivial).mono (Nat.zero_le _)
      | cons site more =>
          cases bound with
          | zero => exact absurd (h site List.mem_cons_self).2 (Nat.not_lt_zero _)
          | succ bound =>
              rw [mostWithin_succ, Nat.mul_add, Nat.mul_one, ← Nat.mul_assoc]
              refine (bounded_expandLevel hobeys hnarrow h).bind fun next hnext => ?_
              exact (ih hnext.2).mono (Nat.mul_le_mul_right _ hnext.1)

end LevelOrder

/-- A derivation that ends has made a bounded number of choices, and fails only where it may. -/
theorem Setting.bounded_grow (hobeys : choose.Obeys s) (hnarrow : s.Narrow rank width)
    {strategy : Strategy} {source : σ} {n : Nat} {result : Except Failure Unit}
    {after : Growth (σ × Nat)}
    (h : s.grow strategy choose.counted start (source, n) = some (result, after)) :
    after.source.2 ≤ n + mostWithin width (rank 0 start + 1) ∧
      ∀ failure, result = .error failure → s.Stops start failure := by
  have hrun : ∀ m : Run (σ × Nat) Unit,
      m.Bounded (mostWithin width (rank 0 start + 1)) (s.Stops start) (fun _ => True) →
        m ⟨.single start, source, n⟩ = some (result, after) →
          after.source.2 ≤ n + mostWithin width (rank 0 start + 1) ∧
            ∀ failure, result = .error failure → s.Stops start failure := by
    intro m hm hsome
    obtain ⟨hcount, hresult⟩ := hm _ _ _ hsome
    refine ⟨hcount, fun failure hfailure => ?_⟩
    subst hfailure
    exact hresult
  cases hd : s.grammar.defines start with
  | false =>
      rw [grow_of_not_defines hd] at h
      exact hrun _ ((bounded_settle _ _).mono (Nat.zero_le _)) h
  | true =>
      have hroot : s.Waits rank start (rank 0 start + 1) (.root start) :=
        ⟨.root hd, Nat.lt_succ_self _⟩
      cases strategy with
      | depthFirst =>
          rw [grow_depthFirst hd] at h
          exact hrun _ (DepthFirst.bounded_expand hobeys hnarrow hroot) h
      | levelOrder =>
          rw [grow_levelOrder hd] at h
          have hall := @LevelOrder.bounded_expandAll σ s choose rank width _ start hobeys hnarrow
            s.levels [.root start] (List.forall_mem_singleton.2 hroot)
          rw [List.length_singleton, Nat.one_mul] at hall
          exact hrun _ hall h

end GrammarSampler

import GrammarSampler.Proofs.Engine.Own

/-!
# Derivations that end

A derivation ends, with a tree or with a failure, if every choice is made and there are levels
enough. With its own costs a grammar never needs more levels than are tried.
-/

namespace GrammarSampler

variable {σ : Type} {s : Setting} {choose : Chooser σ}

/-! ## Steps that end -/

/-- Whether a step ends whatever it starts from, and `q` holds of its value if it gives one. -/
def Run.Ends {α : Type} (m : Run σ α) (q : α → Prop) : Prop :=
  ∀ growth, ∃ result after, m growth = some (result, after) ∧ ∀ a, result = .ok a → q a

namespace Run

variable {α β : Type} {q : α → Prop} {r : β → Prop}

theorem Ends.bind {m : Run σ α} {f : α → Run σ β} (hm : m.Ends q) (hf : ∀ a, q a → (f a).Ends r) :
    (m >>= f).Ends r := by
  intro growth
  obtain ⟨result, after, hrun, hq⟩ := hm growth
  rw [bind_apply, hrun]
  cases result with
  | error failure => exact ⟨.error failure, after, rfl, nofun⟩
  | ok a => exact hf a (hq a rfl) after

theorem ends_pure {a : α} (h : q a) : (pure a : Run σ α).Ends q := by
  intro growth
  refine ⟨.ok a, growth, rfl, fun b hb => ?_⟩
  cases hb
  exact h

theorem ends_settle (id : Nat) (state : NodeState) :
    (settle id state : Run σ Unit).Ends fun _ => True :=
  fun growth => ⟨.ok (), _, settle_apply id state growth, fun _ _ => trivial⟩

theorem ends_addChild (site : Site) (index : Nat) (token : String) :
    (addChild s site index token : Run σ Site).Ends fun child =>
      ∃ id, child = site.child index token id := by
  intro growth
  cases h : s.checkSize (growth.tree.size + 1) with
  | error fault => exact ⟨_, _, addChild_apply_error site index token h, nofun⟩
  | ok =>
      refine ⟨_, _, addChild_apply_ok site index token h, fun child hc => ?_⟩
      cases hc
      exact ⟨_, rfl⟩

def ChildOf (site : Site) (index : Nat) (tokens : List String) (child : Site) : Prop :=
  ∃ place token id, tokens[place]? = some token ∧ child = site.child (index + place) token id

theorem ChildOf.head (site : Site) (index : Nat) (token : String) (id : Nat)
    (tokens : List String) : ChildOf site index (token :: tokens) (site.child index token id) :=
  ⟨0, token, id, rfl, rfl⟩

theorem ChildOf.cons {site child : Site} {index : Nat} {tokens : List String}
    (h : ChildOf site (index + 1) tokens child) (token : String) :
    ChildOf site index (token :: tokens) child := by
  obtain ⟨place, other, id, ht, rfl⟩ := h
  exact ⟨place + 1, other, id, ht, by rw [Nat.add_right_comm, Nat.add_assoc]⟩

theorem ends_addChildren {visit : Site → Run σ Unit} {site : Site} {index : Nat}
    {tokens : List String}
    (hvisit : ∀ child, ChildOf site index tokens child → (visit child).Ends fun _ => True) :
    (addChildren s visit site index tokens).Ends fun children =>
      ∀ child ∈ children, ChildOf site index tokens child := by
  induction tokens generalizing index with
  | nil => exact ends_pure (by simp)
  | cons token tokens ih =>
      refine (ends_addChild site index token).bind fun child hc => ?_
      obtain ⟨id, rfl⟩ := hc
      have hfirst := ChildOf.head site index token id tokens
      refine (hvisit _ hfirst).bind fun _ _ => ?_
      refine (ih fun child hc => hvisit child (hc.cons token)).bind fun rest hrest => ?_
      refine ends_pure (List.forall_mem_cons.2 ⟨hfirst, fun child hc => ?_⟩)
      exact (hrest child hc).cons token

end Run

/-! ## Sites below which derivations end -/

/-- Whether all choices below a site are made, whatever they are drawn from, and end within `levels`
levels. -/
def Setting.Tame (s : Setting) (choose : Chooser σ) : Nat → Site → Prop
  | 0, _ => False
  | levels + 1, site =>
    ∀ options source, s.options site.symbol site.depth = .ok options →
      ∃ rule after, choose site options source = some (rule, after) ∧
        ∀ child, Run.ChildOf site 0 (s.tokens site.symbol rule) child →
          s.grammar.defines child.symbol = true → Tame s choose levels child

open Run

theorem Setting.Tame.ends_chooseRule {levels : Nat} {site : Site}
    (h : s.Tame choose (levels + 1) site) :
    (chooseRule s choose site).Ends fun rule =>
      ∀ child, ChildOf site 0 (s.tokens site.symbol rule) child →
        s.grammar.defines child.symbol = true → s.Tame choose levels child := by
  intro growth
  cases ho : s.options site.symbol site.depth with
  | error fault => exact ⟨_, _, chooseRule_apply_error growth ho, nofun⟩
  | ok options =>
      obtain ⟨rule, source, hchoose, hchildren⟩ := h options growth.source ho
      rw [chooseRule_apply_ok growth ho, hchoose]
      refine ⟨.ok rule, _, rfl, fun other heq => ?_⟩
      cases heq
      exact hchildren

theorem DepthFirst.ends_expand {levels : Nat} {site : Site} (h : s.Tame choose levels site) :
    (expand s choose levels site).Ends fun _ => True := by
  induction levels generalizing site with
  | zero => exact h.elim
  | succ levels ih =>
      refine h.ends_chooseRule.bind fun rule hrule => ?_
      refine (ends_addChildren fun child hc => ?_).bind fun children _ => ends_settle _ _
      cases hd : s.grammar.defines child.symbol with
      | false => exact ends_pure trivial
      | true => exact ih (hrule child hc hd)

namespace LevelOrder

theorem ends_expand {levels : Nat} {site : Site} (h : s.Tame choose (levels + 1) site) :
    (expand s choose site).Ends fun next => ∀ child ∈ next, s.Tame choose levels child := by
  refine h.ends_chooseRule.bind fun rule hrule => ?_
  refine (ends_addChildren fun _ _ => ends_pure trivial).bind fun children hchildren => ?_
  refine (ends_settle _ _).bind fun _ _ => ends_pure fun child hc => ?_
  obtain ⟨hc, hd⟩ := List.mem_filter.1 hc
  exact hrule child (hchildren child hc) hd

theorem ends_expandLevel {levels : Nat} {sites : List Site}
    (h : ∀ site ∈ sites, s.Tame choose (levels + 1) site) :
    (expandLevel s choose sites).Ends fun next => ∀ child ∈ next, s.Tame choose levels child := by
  induction sites with
  | nil => exact ends_pure (by simp)
  | cons site more ih =>
      obtain ⟨hsite, hmore⟩ := List.forall_mem_cons.1 h
      refine (ends_expand hsite).bind fun next hnext => ?_
      refine (ih hmore).bind fun rest hrest => ends_pure ?_
      exact List.forall_mem_append.2 ⟨hnext, hrest⟩

theorem ends_expandAll {levels : Nat} {sites : List Site}
    (h : ∀ site ∈ sites, s.Tame choose levels site) :
    (expandAll s choose levels sites).Ends fun _ => True := by
  induction levels generalizing sites with
  | zero =>
      cases sites with
      | nil => exact ends_pure trivial
      | cons site more => exact (h site List.mem_cons_self).elim
  | succ levels ih =>
      cases sites with
      | nil => exact ends_pure trivial
      | cons site more => exact (ends_expandLevel h).bind fun next hnext => ih hnext

end LevelOrder

namespace Setting

theorem grow_ne_none {start : String} (strategy : Strategy) (source : σ)
    (h : s.grammar.defines start = true → s.Tame choose s.levels (.root start)) :
    s.grow strategy choose start source ≠ none := by
  have hsome : ∀ m : Run σ Unit, (m.Ends fun _ => True) → m ⟨.single start, source⟩ ≠ none := by
    intro m hm hnone
    obtain ⟨result, after, hrun, -⟩ := hm ⟨.single start, source⟩
    rw [hrun] at hnone
    cases hnone
  cases hd : s.grammar.defines start with
  | false =>
      rw [grow_of_not_defines hd]
      exact hsome _ (ends_settle _ _)
  | true =>
      cases strategy with
      | depthFirst =>
          rw [grow_depthFirst hd]
          exact hsome _ (DepthFirst.ends_expand (h hd))
      | levelOrder =>
          rw [grow_levelOrder hd]
          exact hsome _ (LevelOrder.ends_expandAll (List.forall_mem_singleton.2 (h hd)))

/-! ## Ranks -/

/-- Whether a rank goes down with every rule that may be chosen. -/
def Ranks (s : Setting) (rank : Nat → String → Nat) : Prop :=
  ∀ symbol depth options rule, s.options symbol depth = .ok options → options.Allows rule →
    ∀ token ∈ s.tokens symbol rule, s.grammar.defines token = true →
      rank (depth + 1) token < rank depth symbol

theorem Admits.height_le_rank {rank : Nat → String → Nat} (hrank : s.Ranks rank) {depth : Nat}
    {d : Derivation} (h : s.Admits depth d) : d.height ≤ rank depth d.root + 1 := by
  induction h with
  | leaf => exact Nat.zero_le _
  | @node depth rule symbol options ds ho hrule hroots hchildren ih =>
      rw [Derivation.height, Nat.add_le_add_iff_right, Derivation.heights_le_iff]
      intro d hd
      cases hdef : s.grammar.defines d.root with
      | false =>
          rw [(hchildren d hd).eq_leaf hdef]
          exact Nat.zero_le _
      | true =>
          have htoken : d.root ∈ s.tokens symbol rule := by
            rw [← hroots]
            exact List.mem_map_of_mem hd
          exact (ih d hd).trans (hrank symbol depth options rule ho hrule _ htoken hdef)

/-- The most levels that a derivation of a symbol at a depth can have below its first: any rules
down to the budget, and then cheap ones, by which costs go down. -/
def ownRank (g : Grammar) (maxDepth depth : Nat) (symbol : String) : Nat :=
  if depth ≤ maxDepth then maxDepth - depth + g.size + 1
  else (((CostTable.ofGrammar g).symbolCost symbol).value?).getD 0

theorem ownRank_of_le {g : Grammar} {maxDepth depth : Nat} (h : depth ≤ maxDepth)
    (symbol : String) : ownRank g maxDepth depth symbol = maxDepth - depth + g.size + 1 :=
  if_pos h

theorem ownRank_of_lt {g : Grammar} {maxDepth depth : Nat} (h : maxDepth < depth)
    (symbol : String) : ownRank g maxDepth depth symbol =
      (((CostTable.ofGrammar g).symbolCost symbol).value?).getD 0 :=
  if_neg (Nat.not_le.2 h)

theorem ownRank_le_size {g : Grammar} {maxDepth depth : Nat} (h : maxDepth < depth)
    (symbol : String) : ownRank g maxDepth depth symbol ≤ g.size := by
  rw [ownRank_of_lt h]
  cases hc : (CostTable.ofGrammar g).symbolCost symbol with
  | infinite => exact Nat.zero_le _
  | finite n => exact CostTable.symbolCost_le_size hc

theorem ranks_own (g : Grammar) (maxDepth : Nat) (nodeLimit : Option Nat) :
    (own g maxDepth nodeLimit).Ranks (ownRank g maxDepth) := by
  intro symbol depth options rule ho hrule token ht hd
  rcases Nat.lt_trichotomy depth maxDepth with hlt | rfl | hgt
  · rw [ownRank_of_le hlt, ownRank_of_le hlt.le]
    omega
  · have hsize : ownRank g depth (depth + 1) token ≤ g.size :=
      ownRank_le_size (Nat.lt_succ_self depth) token
    rw [ownRank_of_le le_rfl]
    omega
  · obtain ⟨-, hcheap⟩ := exists_allows_iff.1 ⟨options, ho, hrule⟩
    obtain ⟨n, used, hused, hcost, htokens⟩ :=
      CostTable.symbolCost_lt_of_mem_cheapRules (hcheap hgt)
    have hsame : (own g maxDepth nodeLimit).tokens symbol rule = used.tokens := tokens_eq hused
    rw [hsame] at ht
    obtain ⟨m, hm, hmcost⟩ := Cost.le_finite_iff.1 (htokens token ht)
    rw [ownRank_of_lt hgt, ownRank_of_lt (Nat.lt_succ_of_lt hgt), hcost, hmcost]
    exact Nat.lt_succ_of_le hm

theorem ownRank_root_lt_levels (g : Grammar) (maxDepth : Nat) (nodeLimit : Option Nat)
    (symbol : String) : ownRank g maxDepth 0 symbol < (own g maxDepth nodeLimit).levels := by
  rw [ownRank_of_le (Nat.zero_le _), Nat.sub_zero, levels, Nat.lt_iff_add_one_le, Nat.add_assoc]
  exact Nat.add_le_add_left (by decide) _

theorem Admits.height_le_levels {g : Grammar} {maxDepth : Nat} {nodeLimit : Option Nat}
    {d : Derivation} (h : (own g maxDepth nodeLimit).Admits 0 d) :
    d.height ≤ (own g maxDepth nodeLimit).levels :=
  (h.height_le_rank (ranks_own g maxDepth nodeLimit)).trans
    (ownRank_root_lt_levels g maxDepth nodeLimit d.root)

end Setting

end GrammarSampler

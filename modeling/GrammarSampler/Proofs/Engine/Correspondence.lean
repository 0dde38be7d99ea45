import GrammarSampler.Proofs.Cost.Comparison
import GrammarSampler.Proofs.Engine.Meets

/-!
# Derivations under other names

Where two grammars have the same rules up to names for all that a start leads to, derivations from
it go the same way: the same choices lead to the same tree or the same failure, up to names.
-/

namespace GrammarSampler

variable {σ : Type} {r : String → String} {p : String → Prop} {s s' : Setting}
  {choose : Chooser σ}

/-! ## Renaming -/

/-- The fault with the symbol that it names renamed. -/
def Fault.rename (r : String → String) : Fault → Fault
  | .undefinedSymbol symbol => .undefinedSymbol (r symbol)
  | .emptyRuleSet symbol => .emptyRuleSet (r symbol)
  | .unproductive symbol => .unproductive (r symbol)
  | fault => fault

def Site.rename (r : String → String) (site : Site) : Site := { site with symbol := r site.symbol }

def Failure.rename (r : String → String) (failure : Failure) : Failure :=
  ⟨failure.fault.rename r, failure.site.rename r⟩

def Node.rename (r : String → String) (node : Node) : Node := { node with symbol := r node.symbol }

def Tree.rename (r : String → String) (t : Tree) : Tree := ⟨t.nodes.map (Node.rename r)⟩

def Growth.rename (r : String → String) (growth : Growth σ) : Growth σ :=
  ⟨growth.tree.rename r, growth.source⟩

/-- The ending with all symbols renamed. -/
def Ending.rename (r : String → String) (ending : Ending σ) : Ending σ :=
  (ending.1.mapError (Failure.rename r), ending.2.rename r)

/-- The chooser that is shown sites under their new names. -/
def Chooser.renamed (r : String → String) (choose : Chooser σ) : Chooser σ := fun site =>
  choose (site.rename r)

theorem Fault.rename_id (fault : Fault) : fault.rename id = fault := by
  cases fault <;> rfl

theorem Tree.rename_id (t : Tree) : t.rename id = t := by
  rw [rename, show Node.rename id = id from rfl, Array.map_id]

theorem Ending.rename_id (ending : Ending σ) : Ending.rename id ending = ending := by
  obtain ⟨_ | _, after⟩ := ending <;>
    simp only [Ending.rename, Except.mapError, Failure.rename, Fault.rename_id, Growth.rename,
      Tree.rename_id, Site.rename, id_eq]

namespace Tree

@[simp]
theorem size_rename (t : Tree) : (t.rename r).size = t.size := Array.size_map

theorem rename_single (symbol : String) : (single symbol).rename r = single (r symbol) := by
  simp [single, rename, Node.rename]

theorem rename_push (t : Tree) (symbol : String) (state : NodeState) :
    (t.push symbol state).rename r = (t.rename r).push (r symbol) state := by
  simp [push, rename, Node.rename]

theorem rename_resolve (t : Tree) (id : Nat) (state : NodeState) :
    (t.resolve id state).rename r = (t.rename r).resolve id state := by
  simp only [resolve, rename, Tree.mk.injEq]
  apply Array.ext_getElem?
  intro place
  simp only [Array.getElem?_map, Array.getElem?_modify]
  split <;> simp [Option.map_map, Function.comp_def, Node.rename]

end Tree

/-! ## Settings -/

/-- Whether `s'` lets choose under new names as `s` does, for symbols of which `p` holds. -/
structure Setting.Corresponds (s s' : Setting) (r : String → String) (p : String → Prop) : Prop
    where
  grammar : s.grammar.Corresponds s'.grammar r p
  cheap : ∀ symbol, p symbol → s'.cheap (r symbol) = s.cheap symbol
  maxDepth : s'.maxDepth = s.maxDepth
  nodeLimit : s'.nodeLimit = s.nodeLimit

namespace Setting.Corresponds

theorem options (h : s.Corresponds s' r p) {symbol : String} (hp : p symbol) (depth : Nat) :
    s'.options (r symbol) depth = (s.options symbol depth).mapError (Fault.rename r) := by
  have hrules := h.grammar.rulesOf hp
  by_cases hr : s.grammar.rulesOf symbol = []
  · rw [hr, List.map_nil] at hrules
    rw [options_eq_emptyRuleSet hr, options_eq_emptyRuleSet hrules]
    rfl
  · have hr' : s'.grammar.rulesOf (r symbol) ≠ [] := by
      rwa [hrules, Ne, List.map_eq_nil_iff]
    rcases Nat.lt_or_ge s.maxDepth depth with hd | hd
    · have hd' : s'.maxDepth < depth := h.maxDepth ▸ hd
      have hcheap := h.cheap symbol hp
      by_cases hc : s.cheap symbol = []
      · rw [options_eq_unproductive hr hd hc, options_eq_unproductive hr' hd' (hcheap.trans hc)]
        rfl
      · rw [options_eq_among hr hd hc, options_eq_among hr' hd' (hcheap ▸ hc), hcheap]
        rfl
    · have hd' : depth ≤ s'.maxDepth := h.maxDepth ▸ hd
      rw [options_eq_any hr hd, options_eq_any hr' hd', hrules, List.length_map]
      rfl

theorem tokens (h : s.Corresponds s' r p) {symbol : String} (hp : p symbol) (index : Nat) :
    s'.tokens (r symbol) index = (s.tokens symbol index).map r := by
  rw [Setting.tokens, h.grammar.rulesOf hp, List.getElem?_map, Setting.tokens]
  cases (s.grammar.rulesOf symbol)[index]? <;> rfl

theorem of_mem_tokens (h : s.Corresponds s' r p) {symbol token : String} {index : Nat}
    (hp : p symbol) (ht : token ∈ s.tokens symbol index) : p token := by
  obtain ⟨rule, hrule, htoken⟩ := exists_rule_of_mem_tokens ht
  exact h.grammar.closed symbol hp rule (List.mem_of_getElem? hrule) token htoken

theorem stateOf (h : s.Corresponds s' r p) {token : String} (hp : p token) :
    s'.stateOf (r token) = s.stateOf token := by
  rw [Setting.stateOf, h.grammar.defines hp, Setting.stateOf]

theorem checkSize (h : s.Corresponds s' r p) (size : Nat) :
    s'.checkSize size = s.checkSize size := by
  rw [Setting.checkSize, h.nodeLimit, Setting.checkSize]

end Setting.Corresponds

theorem Setting.exists_nodeLimit_of_checkSize {size : Nat} {fault : Fault}
    (h : s.checkSize size = .error fault) : ∃ limit, fault = .nodeLimit limit := by
  unfold checkSize at h
  split at h
  · split at h
    · cases h
      exact ⟨_, rfl⟩
    · cases h
  · cases h

/-! ## Steps -/

namespace Run

variable {α β α' β' : Type} {q : α → Prop} {q' : β → Prop} {f : α → α'} {f' : β → β'}

/-- How a step ends under new names, with `f` for its value. -/
def renamed (r : String → String) (f : α → α') (ending : Except Failure α × Growth σ) :
    Except Failure α' × Growth σ :=
  ((ending.1.mapError (Failure.rename r)).map f, ending.2.rename r)

/-- Whether `n` does under new names what `m` does, whose values have the property `q`. -/
def Corresponds (r : String → String) (q : α → Prop) (f : α → α') (m : Run σ α) (n : Run σ α') :
    Prop :=
  ∀ growth, n (growth.rename r) = (m growth).map (renamed r f) ∧
    ∀ a after, m growth = some (.ok a, after) → q a

theorem Corresponds.bind {m : Run σ α} {n : Run σ α'} {k : α → Run σ β} {l : α' → Run σ β'}
    (hm : Corresponds r q f m n) (hk : ∀ a, q a → Corresponds r q' f' (k a) (l (f a))) :
    Corresponds r q' f' (m >>= k) (n >>= l) := by
  intro growth
  obtain ⟨hrun, hq⟩ := hm growth
  constructor
  · rw [bind_apply, bind_apply, hrun]
    cases hfirst : m growth with
    | none => rfl
    | some ending =>
        obtain ⟨_ | a, after⟩ := ending
        · rfl
        · exact (hk a (hq a after hfirst) after).1
  · intro b after hboth
    obtain ⟨a, middle, hfirst, hrest⟩ := bind_eq_ok_iff.1 hboth
    exact (hk a (hq a middle hfirst) middle).2 b after hrest

theorem corresponds_pure {a : α} {a' : α'} (hq : q a) (hf : f a = a') :
    Corresponds r q f (pure a : Run σ α) (pure a') := by
  intro growth
  subst hf
  refine ⟨rfl, fun b after hb => ?_⟩
  cases hb
  exact hq

theorem corresponds_settle (id : Nat) (state : NodeState) :
    Corresponds r (fun _ => True) (fun u => u) (settle id state : Run σ Unit)
      (settle id state) := by
  refine fun growth => ⟨?_, fun _ _ _ => trivial⟩
  simp only [settle_apply, Growth.rename, Option.map_some, renamed, Tree.rename_resolve]
  rfl

theorem corresponds_chooseRule (h : s.Corresponds s' r p) (hobeys : choose.Obeys s') {site : Site}
    (hp : p site.symbol) :
    Corresponds r
      (fun rule => ∃ options, s.options site.symbol site.depth = .ok options ∧ options.Allows rule)
      (fun rule => rule) (chooseRule s (choose.renamed r) site)
      (chooseRule s' choose (site.rename r)) := by
  intro growth
  have hoptions := h.options hp site.depth
  cases ho : s.options site.symbol site.depth with
  | error fault =>
      have ho' : s'.options (site.rename r).symbol (site.rename r).depth =
          .error (fault.rename r) := by
        rw [ho] at hoptions
        exact hoptions
      rw [chooseRule_apply_error growth ho, chooseRule_apply_error (growth.rename r) ho']
      exact ⟨rfl, nofun⟩
  | ok options =>
      have ho' : s'.options (site.rename r).symbol (site.rename r).depth = .ok options := by
        rw [ho] at hoptions
        exact hoptions
      rw [chooseRule_apply_ok growth ho, chooseRule_apply_ok (growth.rename r) ho', Option.map_map]
      refine ⟨rfl, fun rule after hrule => ⟨options, rfl, ?_⟩⟩
      obtain ⟨⟨rule, source⟩, hchoose, heq⟩ := Option.map_eq_some_iff.1 hrule
      cases heq
      exact hobeys _ options growth.source rule source ho' hchoose

theorem corresponds_addChild (h : s.Corresponds s' r p) (parent : Site) (index : Nat)
    {token : String} (hp : p token) :
    Corresponds r (fun child => ∃ id, child = parent.child index token id) (Site.rename r)
      (addChild s parent index token : Run σ Site)
      (addChild s' (parent.rename r) index (r token)) := by
  intro growth
  have hsize : s'.checkSize ((growth.rename r).tree.size + 1) =
      s.checkSize (growth.tree.size + 1) := by
    rw [Growth.rename, Tree.size_rename, h.checkSize]
  have hafter : Growth.rename r { growth with tree := growth.tree.push token (s.stateOf token) } =
      { growth.rename r with
        tree := (growth.rename r).tree.push (r token) (s'.stateOf (r token)) } := by
    rw [h.stateOf hp, Growth.rename, Tree.rename_push]
    rfl
  cases hc : s.checkSize (growth.tree.size + 1) with
  | error fault =>
      obtain ⟨limit, rfl⟩ := Setting.exists_nodeLimit_of_checkSize hc
      rw [addChild_apply_error parent index token hc,
        addChild_apply_error (parent.rename r) index (r token) (hsize.trans hc), ← hafter]
      exact ⟨rfl, nofun⟩
  | ok =>
      rw [addChild_apply_ok parent index token hc,
        addChild_apply_ok (parent.rename r) index (r token) (hsize.trans hc), ← hafter]
      refine ⟨?_, fun child after hchild => ?_⟩
      · rw [Growth.rename, Tree.size_rename]
        rfl
      · cases hchild
        exact ⟨_, rfl⟩

theorem corresponds_addChildren (h : s.Corresponds s' r p) {visit seen : Site → Run σ Unit}
    {parent : Site} {tokens : List String} {index : Nat} (hp : ∀ token ∈ tokens, p token)
    (hvisit : ∀ child, ChildOf parent index tokens child →
      Corresponds r (fun _ => True) (fun u => u) (visit child) (seen (child.rename r))) :
    Corresponds r (fun children => ∀ child ∈ children, ChildOf parent index tokens child)
      (List.map (Site.rename r)) (addChildren s visit parent index tokens)
      (addChildren s' seen (parent.rename r) index (tokens.map r)) := by
  induction tokens generalizing index with
  | nil => exact corresponds_pure (by simp) rfl
  | cons token tokens ih =>
      obtain ⟨hfirst, hmore⟩ := List.forall_mem_cons.1 hp
      refine (corresponds_addChild h parent index hfirst).bind fun child hchild => ?_
      obtain ⟨id, rfl⟩ := hchild
      have hhead := ChildOf.head parent index token id tokens
      refine (hvisit _ hhead).bind fun _ _ => ?_
      refine (ih hmore fun child hc => hvisit child (hc.cons token)).bind fun rest hrest => ?_
      refine corresponds_pure (List.forall_mem_cons.2 ⟨hhead, fun child hc => ?_⟩) rfl
      exact (hrest child hc).cons token

end Run

open Run

/-! ## The orders -/

theorem Site.map_id_rename (sites : List Site) :
    (sites.map (Site.rename r)).map (·.id) = sites.map (·.id) := by
  rw [List.map_map]
  rfl

/-- Whether there are levels enough below a site, for both names of it. -/
def Site.Room (rank rank' : Nat → String → Nat) (r : String → String) (levels levels' : Nat)
    (site : Site) : Prop :=
  rank site.depth site.symbol < levels ∧ rank' site.depth (r site.symbol) < levels'

section Ranked

variable {rank rank' : Nat → String → Nat} {levels levels' : Nat} {site : Site}
  (h : s.Corresponds s' r p) (hobeys : choose.Obeys s') (hrank : s.Ranks rank)
  (hrank' : s'.Ranks rank')

include h hrank hrank'

/-- The levels that are needed go down for both names at once. -/
theorem Setting.Corresponds.room_child (hp : p site.symbol)
    (hroom : site.Room rank rank' r (levels + 1) (levels' + 1)) {options : Options} {rule : Nat}
    (ho : s.options site.symbol site.depth = .ok options) (hallows : options.Allows rule)
    {child : Site} (hchild : ChildOf site 0 (s.tokens site.symbol rule) child) :
    p child.symbol ∧
      (s.grammar.defines child.symbol = true → child.Room rank rank' r levels levels') := by
  obtain ⟨place, token, id, htoken, rfl⟩ := hchild
  have ht : token ∈ s.tokens site.symbol rule := List.mem_of_getElem? htoken
  have hpt : p token := h.of_mem_tokens hp ht
  refine ⟨hpt, fun hd => ?_⟩
  have hlt := hrank site.symbol site.depth options rule ho hallows token ht hd
  have ho' : s'.options (r site.symbol) site.depth = .ok options := by
    rw [h.options hp, ho]
    rfl
  have ht' : r token ∈ s'.tokens (r site.symbol) rule :=
    h.tokens hp rule ▸ List.mem_map_of_mem ht
  have hlt' := hrank' (r site.symbol) site.depth options rule ho' hallows (r token) ht'
    ((h.grammar.defines hpt).trans hd)
  exact ⟨Nat.lt_of_lt_of_le hlt (Nat.le_of_lt_succ hroom.1),
    Nat.lt_of_lt_of_le hlt' (Nat.le_of_lt_succ hroom.2)⟩

include hobeys

theorem DepthFirst.corresponds_expand (hp : p site.symbol)
    (hroom : site.Room rank rank' r levels levels') :
    Run.Corresponds r (fun _ => True) (fun u => u) (expand s (choose.renamed r) levels site)
      (expand s' choose levels' (site.rename r)) := by
  -- the two runs may try different numbers of levels, and neither comes to the last
  induction levels generalizing levels' site with
  | zero => exact absurd hroom.1 (Nat.not_lt_zero _)
  | succ levels ih =>
      cases levels' with
      | zero => exact absurd hroom.2 (Nat.not_lt_zero _)
      | succ levels' =>
          refine (corresponds_chooseRule h hobeys hp).bind fun rule hrule => ?_
          obtain ⟨options, ho, hallows⟩ := hrule
          have htokens : s'.tokens (site.rename r).symbol rule = _ := h.tokens hp rule
          rw [htokens]
          refine (corresponds_addChildren h (fun token => h.of_mem_tokens hp)
            fun child hchild => ?_).bind fun children _ => ?_
          · obtain ⟨hpc, hroom⟩ := h.room_child hrank hrank' hp hroom ho hallows hchild
            have hdefines : s'.grammar.defines (child.rename r).symbol = _ :=
              h.grammar.defines hpc
            rw [hdefines]
            cases hd : s.grammar.defines child.symbol with
            | false => exact corresponds_pure trivial rfl
            | true => exact ih hpc (hroom hd)
          · rw [Site.map_id_rename]
            exact corresponds_settle _ _

namespace LevelOrder

theorem corresponds_expand (hp : p site.symbol)
    (hroom : site.Room rank rank' r (levels + 1) (levels' + 1)) :
    Run.Corresponds r
      (fun next => ∀ child ∈ next, p child.symbol ∧ child.Room rank rank' r levels levels')
      (List.map (Site.rename r)) (expand s (choose.renamed r) site)
      (expand s' choose (site.rename r)) := by
  refine (corresponds_chooseRule h hobeys hp).bind fun rule hrule => ?_
  obtain ⟨options, ho, hallows⟩ := hrule
  have htokens : s'.tokens (site.rename r).symbol rule = _ := h.tokens hp rule
  rw [htokens]
  refine (corresponds_addChildren h (fun token => h.of_mem_tokens hp)
    fun _ _ => corresponds_pure trivial rfl).bind fun children hchildren => ?_
  have hall := fun child hc =>
    h.room_child hrank hrank' hp hroom ho hallows (hchildren child hc)
  rw [Site.map_id_rename]
  refine (corresponds_settle _ _).bind fun _ _ => corresponds_pure ?_ ?_
  · intro child hc
    obtain ⟨hc, hd⟩ := List.mem_filter.1 hc
    exact ⟨(hall child hc).1, (hall child hc).2 hd⟩
  · rw [List.filter_map]
    refine congrArg _ (List.filter_congr fun child hc => ?_)
    exact (h.grammar.defines (hall child hc).1).symm

theorem corresponds_expandLevel {sites : List Site}
    (hsites : ∀ site ∈ sites, p site.symbol ∧ site.Room rank rank' r (levels + 1) (levels' + 1)) :
    Run.Corresponds r
      (fun next => ∀ child ∈ next, p child.symbol ∧ child.Room rank rank' r levels levels')
      (List.map (Site.rename r)) (expandLevel s (choose.renamed r) sites)
      (expandLevel s' choose (sites.map (Site.rename r))) := by
  induction sites with
  | nil => exact corresponds_pure (by simp) rfl
  | cons site more ih =>
      obtain ⟨⟨hp, hroom⟩, hmore⟩ := List.forall_mem_cons.1 hsites
      refine (corresponds_expand h hobeys hrank hrank' hp hroom).bind fun next hnext => ?_
      refine (ih hmore).bind fun rest hrest => corresponds_pure ?_ List.map_append
      exact List.forall_mem_append.2 ⟨hnext, hrest⟩

theorem corresponds_expandAll {sites : List Site}
    (hsites : ∀ site ∈ sites, p site.symbol ∧ site.Room rank rank' r levels levels') :
    Run.Corresponds r (fun _ => True) (fun u => u) (expandAll s (choose.renamed r) levels sites)
      (expandAll s' choose levels' (sites.map (Site.rename r))) := by
  induction levels generalizing levels' sites with
  | zero =>
      cases sites with
      | nil => cases levels' <;> exact corresponds_pure trivial rfl
      | cons site more =>
          exact absurd (hsites site List.mem_cons_self).2.1 (Nat.not_lt_zero _)
  | succ levels ih =>
      cases sites with
      | nil => cases levels' <;> exact corresponds_pure trivial rfl
      | cons site more =>
          cases levels' with
          | zero => exact absurd (hsites site List.mem_cons_self).2.2 (Nat.not_lt_zero _)
          | succ levels' =>
              exact (corresponds_expandLevel h hobeys hrank hrank' hsites).bind
                fun next hnext => ih hnext

end LevelOrder

/-! ## Runs -/

namespace Setting.Corresponds

theorem grow_eq {start : String} (hp : p start)
    (hroom : (Site.root start).Room rank rank' r s.levels s'.levels) (strategy : Strategy)
    (source : σ) :
    s'.grow strategy choose (r start) source =
      (s.grow strategy (choose.renamed r) start source).map (Ending.rename r) := by
  have hending : Run.renamed r (fun u => u) = (Ending.rename r : Ending σ → Ending σ) := by
    funext ending
    obtain ⟨_ | _, after⟩ := ending <;> rfl
  have hsingle : (⟨.single (r start), source⟩ : Growth σ) =
      Growth.rename r ⟨.single start, source⟩ := by
    rw [Growth.rename, Tree.rename_single]
  rw [← hending]
  cases hd : s.grammar.defines start with
  | false =>
      have hd' : s'.grammar.defines (r start) = false := (h.grammar.defines hp).trans hd
      rw [grow_of_not_defines hd, grow_of_not_defines hd', hsingle]
      exact (corresponds_settle _ _ _).1
  | true =>
      have hd' : s'.grammar.defines (r start) = true := (h.grammar.defines hp).trans hd
      cases strategy with
      | depthFirst =>
          rw [grow_depthFirst hd, grow_depthFirst hd', hsingle]
          exact (DepthFirst.corresponds_expand h hobeys hrank hrank' hp hroom _).1
      | levelOrder =>
          rw [grow_levelOrder hd, grow_levelOrder hd', hsingle]
          exact (LevelOrder.corresponds_expandAll h hobeys hrank hrank'
            (List.forall_mem_singleton.2 ⟨hp, hroom⟩) _).1

end Setting.Corresponds

end Ranked

/-! ## Own costs -/

/-- What is given away of an ending: the tree or the fault, and the source. -/
def Ending.given (ending : Ending σ) : Except Fault Tree × σ :=
  match ending with
  | (.ok (), after) => (.ok after.tree, after.source)
  | (.error failure, after) => (.error failure.fault, after.source)

theorem Ending.given_rename (ending : Ending σ) : (Ending.rename r ending).given =
    Prod.map (fun result => (result.mapError (Fault.rename r)).map (Tree.rename r)) id
      ending.given := by
  obtain ⟨_ | _, after⟩ := ending <;> rfl

theorem derive_eq_map (g : Grammar) (strategy : Strategy) (nodeLimit : Option Nat)
    (start : String) (maxDepth : Nat) (source : Source) :
    derive g (.ofGrammar g) strategy nodeLimit start maxDepth source =
      ((strategy.setting g maxDepth nodeLimit).grow strategy Source.choose start source).map
        Ending.given := by
  refine congrArg (Option.map · _) (funext fun ending => ?_)
  obtain ⟨_ | _, after⟩ := ending <;> rfl

namespace Grammar.Corresponds

variable {g g' : Grammar} {start : String} {strategy : Strategy} {maxDepth : Nat}
  {nodeLimit : Option Nat}

theorem own (h : g.Corresponds g' r p) (maxDepth : Nat) (nodeLimit : Option Nat) :
    (Setting.own g maxDepth nodeLimit).Corresponds (.own g' maxDepth nodeLimit) r p where
  grammar := h
  cheap _ hp := CostTable.cheapRules_eq_of_corresponds h hp
  maxDepth := rfl
  nodeLimit := rfl

theorem grow_eq (h : g.Corresponds g' r p) (hp : p start)
    (hobeys : choose.Obeys (strategy.setting g' maxDepth nodeLimit)) (source : σ) :
    (strategy.setting g' maxDepth nodeLimit).grow strategy choose (r start) source =
      ((strategy.setting g maxDepth nodeLimit).grow strategy (choose.renamed r) start source).map
        (Ending.rename r) := by
  rw [strategy.setting_eq_own] at hobeys ⊢
  rw [strategy.setting_eq_own]
  have hroom := And.intro (Setting.ownRank_root_lt_levels g maxDepth nodeLimit start)
    (Setting.ownRank_root_lt_levels g' maxDepth nodeLimit (r start))
  exact (h.own maxDepth nodeLimit).grow_eq hobeys (Setting.ranks_own g maxDepth nodeLimit)
    (Setting.ranks_own g' maxDepth nodeLimit) hp hroom strategy source

theorem derive_eq (h : g.Corresponds g' r p) (hp : p start) (strategy : Strategy)
    (nodeLimit : Option Nat) (maxDepth : Nat) (source : Source) :
    derive g' (.ofGrammar g') strategy nodeLimit (r start) maxDepth source =
      (derive g (.ofGrammar g) strategy nodeLimit start maxDepth source).map
        (Prod.map (fun result => (result.mapError (Fault.rename r)).map (Tree.rename r)) id) := by
  have hobeys := Source.obeys_choose (strategy.setting g' maxDepth nodeLimit)
  have hchoose : Source.choose.renamed r = Source.choose := by
    funext site options
    cases options <;> rfl
  rw [derive_eq_map, derive_eq_map, h.grow_eq hp hobeys, hchoose, Option.map_map, Option.map_map]
  exact congrArg (Option.map · _) (funext Ending.given_rename)

end Grammar.Corresponds

end GrammarSampler

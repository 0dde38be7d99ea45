import GrammarSampler.Proofs.Cost.Equations
import GrammarSampler.Proofs.Engine.Own
import GrammarSampler.Proofs.Engine.Valid
import GrammarSampler.Proofs.Random.Even
import GrammarSampler.Proofs.Random.Fair

/-!
# The choice of a rule

A choice falls on each rule that may be chosen by equally many words, and every other word is drawn
again. Both orders choose alike, also with the costs of another grammar.
-/

namespace GrammarSampler

variable {s : Setting} {site : Site} {w : Width} {rule word : Nat}

/-! ## Options -/

namespace Options

/-- The rules that may be chosen, in the order in which numbers stand for them. -/
def indices : Options → List Nat
  | .any count => List.range count
  | .among indices => indices

/-- The width of the words that choose. -/
def width : Options → Width
  | .any _ => .w64
  | .among indices => .ofLength indices.length

theorem mem_indices_iff {options : Options} : rule ∈ options.indices ↔ options.Allows rule := by
  cases options with
  | any count => exact List.mem_range
  | among indices => exact Iff.rfl

end Options

theorem Source.choose_eq {options : Options} (hpos : 0 < options.indices.length) (site : Site)
    (source : Source) :
    choose site options source =
      (source.below options.width options.indices.length).map fun drawn =>
        (options.indices[drawn.1]?.getD 0, drawn.2) := by
  cases options with
  | among => rfl
  | any count =>
      have hcount : 0 < count := by simpa [Options.indices] using hpos
      rw [choose, Options.indices, List.length_range, Options.width]
      cases hbelow : source.below .w64 count with
      | none => rfl
      | some drawn =>
          have hlt := (draws_of_below hbelow).lt hcount
          rw [Option.map_some, List.getElem?_range hlt]
          rfl

/-! ## What a word decides -/

namespace Setting

/-- Whether the choice at `site` comes out as `rule` if the next word of width `w` is `word`, from
whatever source it is drawn and whatever has grown. -/
def SettlesOn (s : Setting) (site : Site) (w : Width) (rule word : Nat) : Prop :=
  ∀ growth after, growth.source.next w = (word, after) →
    Run.chooseRule s Source.choose site growth =
      some (.ok rule, { growth with source := after })

/-- Whether the choice at `site` is left to the words that come after `word`: however it ends, it
ends as if `word` had not been drawn, and from a fair source it does end. -/
def Redraws (s : Setting) (site : Site) (w : Width) (word : Nat) : Prop :=
  ∀ growth after, growth.source.next w = (word, after) →
    (∀ ending, Run.chooseRule s Source.choose site growth = some ending →
      Run.chooseRule s Source.choose site { growth with source := after } = some ending) ∧
    (growth.source.Fair → Run.chooseRule s Source.choose site growth ≠ none)

/-- The words of width `w` by which the choice at `site` comes out as `rule`. -/
def wordsFor (s : Setting) (site : Site) (w : Width) (rule : Nat) : Set Nat :=
  {word | word < 2 ^ w.bits ∧ s.SettlesOn site w rule word}

/-- Whether words of width `w` choose at `site` among `rules`, and each of them equally often. -/
structure DrawsEvenly (s : Setting) (site : Site) (w : Width) (rules : List Nat) : Prop where
  ncard_wordsFor : ∀ rule ∈ rules,
    (s.wordsFor site w rule).ncard = 2 ^ w.leadingZeros rules.length
  wordsFor_eq_empty : ∀ rule ∉ rules, s.wordsFor site w rule = ∅
  redraws : ∀ word < 2 ^ w.bits, (∀ rule, word ∉ s.wordsFor site w rule) →
    s.Redraws site w word
  mem_of_chooseRule : ∀ growth rule after,
    Run.chooseRule s Source.choose site growth = some (.ok rule, after) → rule ∈ rules

variable {options : Options}

theorem mem_indices_of_chooseRule (ho : s.options site.symbol site.depth = .ok options)
    {growth after : Growth Source}
    (h : Run.chooseRule s Source.choose site growth = some (.ok rule, after)) :
    rule ∈ options.indices := by
  rw [Run.chooseRule_apply_ok growth ho, Option.map_eq_some_iff] at h
  obtain ⟨⟨chosen, last⟩, hchoose, heq⟩ := h
  cases heq
  exact Options.mem_indices_iff.2 (Source.obeys_choose s _ _ _ _ _ ho hchoose)

theorem exists_options_of_chooseRule {growth after : Growth Source}
    (h : Run.chooseRule s Source.choose site growth = some (.ok rule, after)) :
    ∃ options, s.options site.symbol site.depth = .ok options := by
  cases ho : s.options site.symbol site.depth with
  | ok options => exact ⟨options, rfl⟩
  | error =>
      rw [Run.chooseRule_apply_error growth ho] at h
      cases h

section

variable (ho : s.options site.symbol site.depth = .ok options)
  (hpos : 0 < options.indices.length)

include ho hpos

theorem chooseRule_eq_map_below (growth : Growth Source) :
    Run.chooseRule s Source.choose site growth =
      (growth.source.below options.width options.indices.length).map fun drawn =>
        (.ok (options.indices[drawn.1]?.getD 0), { growth with source := drawn.2 }) := by
  rw [Run.chooseRule_apply_ok growth ho, Source.choose_eq hpos, Option.map_map]
  rfl

theorem settlesOn_of_accept? {place : Nat}
    (ha : accept? options.width.bits options.indices.length word = some place)
    (hplace : options.indices[place]? = some rule) :
    s.SettlesOn site options.width rule word := by
  intro growth after hnext
  have hbelow := Source.below_of_accept? (s := growth.source) (w := options.width)
    (n := options.indices.length) (i := place) (by rw [hnext, ha])
  rw [chooseRule_eq_map_below ho hpos, hbelow, hnext, Option.map_some, hplace]
  rfl

theorem redraws_of_reject (ha : accept? options.width.bits options.indices.length word = none) :
    s.Redraws site options.width word := by
  intro growth after hnext
  refine ⟨fun ending hending => ?_, fun hfair => ?_⟩
  · rw [chooseRule_eq_map_below ho hpos, Option.map_eq_some_iff] at hending ⊢
    obtain ⟨drawn, hbelow, heq⟩ := hending
    have hmore := Source.below_of_reject (by rw [hnext, ha]) hbelow
    rw [hnext] at hmore
    exact ⟨drawn, hmore, heq⟩
  · obtain ⟨place, last, hbelow, -⟩ := hfair.exists_below options.width hpos
    rw [chooseRule_eq_map_below ho hpos, hbelow]
    exact Option.some_ne_none _

/-- A word settles the choice by the number that it stands for. -/
theorem exists_accept?_of_settlesOn (hword : word < 2 ^ options.width.bits)
    (h : s.SettlesOn site options.width rule word) :
    ∃ place, accept? options.width.bits options.indices.length word = some place ∧
      options.indices[place]? = some rule := by
  obtain ⟨first, hfirst⟩ := Source.exists_next_script options.width hword
  obtain ⟨after, -, hnext⟩ := hfirst [] 0 0
  have hchoose := h ⟨default, .ofScript [first]⟩ after hnext
  cases ha : accept? options.width.bits options.indices.length word with
  | none =>
      -- what is drawn later cannot end where the first word leaves the source
      have hagain := (redraws_of_reject ho hpos ha ⟨default, .ofScript [first]⟩ after hnext).1 _
        hchoose
      rw [chooseRule_eq_map_below ho hpos, Option.map_eq_some_iff] at hagain
      obtain ⟨⟨place, last⟩, hbelow, heq⟩ := hagain
      cases heq
      exact absurd (Source.draws_of_below hbelow).drawn_lt (Nat.lt_irrefl _)
  | some place =>
      have hlt := lt_of_accept? hpos hword ha
      have hplace := List.getElem?_eq_getElem hlt
      have hsame := settlesOn_of_accept? ho hpos ha hplace ⟨default, .ofScript [first]⟩ after hnext
      rw [hsame] at hchoose
      cases hchoose
      exact ⟨place, rfl, hplace⟩

theorem wordsFor_eq {place : Nat} (hnodup : options.indices.Nodup)
    (hplace : options.indices[place]? = some rule) :
    s.wordsFor site options.width rule =
      {word | word < 2 ^ options.width.bits ∧
        accept? options.width.bits options.indices.length word = some place} := by
  ext word
  refine and_congr_right fun hword => ⟨fun h => ?_, fun ha => ?_⟩
  · obtain ⟨other, ha, hother⟩ := exists_accept?_of_settlesOn ho hpos hword h
    obtain ⟨hlt, -⟩ := List.getElem?_eq_some_iff.1 hplace
    rw [ha, (List.getElem?_inj hlt hnodup).1 (hplace.trans hother.symm)]
  · exact settlesOn_of_accept? ho hpos ha hplace

theorem drawsEvenly_of_options (hnodup : options.indices.Nodup)
    (hlt : options.indices.length < 2 ^ options.width.bits) :
    s.DrawsEvenly site options.width options.indices where
  ncard_wordsFor rule hrule := by
    obtain ⟨place, hplace, hrule⟩ := List.mem_iff_getElem.1 hrule
    have hat := List.getElem?_eq_some_iff.2 ⟨hplace, hrule⟩
    rw [wordsFor_eq ho hpos hnodup hat, Width.ncard_accept? hlt hplace]
  wordsFor_eq_empty rule hrule := by
    refine Set.eq_empty_of_forall_notMem fun word hword => hrule ?_
    obtain ⟨place, -, hplace⟩ := exists_accept?_of_settlesOn ho hpos hword.1 hword.2
    exact List.mem_of_getElem? hplace
  redraws word hword hnone := by
    cases ha : accept? options.width.bits options.indices.length word with
    | none => exact redraws_of_reject ho hpos ha
    | some place =>
        have hplace := List.getElem?_eq_getElem (lt_of_accept? hpos hword ha)
        exact absurd ⟨hword, settlesOn_of_accept? ho hpos ha hplace⟩ (hnone _)
  mem_of_chooseRule growth rule after := mem_indices_of_chooseRule ho

end

end Setting

/-! ## Choices with a grammar's costs -/

theorem CostTable.nodup_cheapRules (g : Grammar) (symbol : String) :
    ((ofGrammar g).cheapRules symbol).Nodup := by
  rw [cheapRules_ofGrammar]
  exact (Cost.cheapest_pairwise_lt _).imp Nat.ne_of_lt

/-- In both orders a choice is even: down to the budget words of 64 bits choose among all rules, and
past it words of 32 bits among the cheap ones. -/
theorem rule_choices_even (g : Grammar) (strategy : Strategy) (maxDepth : Nat)
    (nodeLimit : Option Nat) (site : Site) (hrules : g.rulesOf site.symbol ≠ [])
    (hfew : (g.rulesOf site.symbol).length < 2 ^ 32) :
    (site.depth ≤ maxDepth →
      (strategy.setting g maxDepth nodeLimit).DrawsEvenly site .w64
        (List.range (g.rulesOf site.symbol).length)) ∧
    (maxDepth < site.depth → (CostTable.ofGrammar g).cheapRules site.symbol ≠ [] →
      (strategy.setting g maxDepth nodeLimit).DrawsEvenly site .w32
        ((CostTable.ofGrammar g).cheapRules site.symbol)) ∧
    ∀ growth rule after,
      Run.chooseRule (strategy.setting g maxDepth nodeLimit) Source.choose site growth =
        some (.ok rule, after) →
      rule < (g.rulesOf site.symbol).length := by
  rw [strategy.setting_eq_own]
  refine ⟨fun hdepth => ?_, fun hdepth hcheap => ?_, fun growth rule after hchoose => ?_⟩
  · have ho : (Setting.own g maxDepth nodeLimit).options site.symbol site.depth =
        .ok (.any (g.rulesOf site.symbol).length) := Setting.options_eq_any hrules hdepth
    have hpos : 0 < (List.range (g.rulesOf site.symbol).length).length := by
      rw [List.length_range]
      exact List.length_pos_iff.2 hrules
    refine Setting.drawsEvenly_of_options ho hpos List.nodup_range ?_
    rw [Options.indices, List.length_range]
    exact hfew.trans (show 2 ^ 32 < 2 ^ 64 by decide)
  · have ho : (Setting.own g maxDepth nodeLimit).options site.symbol site.depth =
        .ok (.among ((CostTable.ofGrammar g).cheapRules site.symbol)) :=
      Setting.options_eq_among hrules hdepth hcheap
    have hlt := (CostTable.length_cheapRules_le g site.symbol).trans_lt hfew
    have hwidth : (Options.among ((CostTable.ofGrammar g).cheapRules site.symbol)).width = .w32 :=
      Width.ofLength_of_lt hlt
    rw [← hwidth]
    refine Setting.drawsEvenly_of_options ho (List.length_pos_iff.2 hcheap)
      (CostTable.nodup_cheapRules g _) ?_
    rw [hwidth]
    exact hlt
  · obtain ⟨options, ho⟩ := Setting.exists_options_of_chooseRule hchoose
    exact Setting.lt_length_of_allows ho
      (Options.mem_indices_iff.1 (Setting.mem_indices_of_chooseRule ho hchoose))

theorem rule_choices_even_nested :
    Grammar.nested.rulesOf "<s>" ≠ [] ∧ (Grammar.nested.rulesOf "<s>").length < 2 ^ 32 ∧
      (∀ rule < 2, ((Strategy.depthFirst.setting .nested 0 none).wordsFor (.root "<s>") .w64
        rule).ncard = 2 ^ 62) ∧
      ((Strategy.levelOrder.setting .nested 0 none).wordsFor ⟨2, "<s>", 1, [1]⟩ .w32
        0).ncard = 2 ^ 31 := by
  have hrules : Grammar.nested.rulesOf "<s>" ≠ [] := by decide
  have hfew : (Grammar.nested.rulesOf "<s>").length < 2 ^ 32 := by decide
  have hroot := rule_choices_even .nested .depthFirst 0 none (.root "<s>") hrules hfew
  have hinner := rule_choices_even .nested .levelOrder 0 none ⟨2, "<s>", 1, [1]⟩ hrules hfew
  refine ⟨hrules, hfew, fun rule hrule => ?_, ?_⟩
  · exact (hroot.1 (Nat.le_refl 0)).ncard_wordsFor rule (List.mem_range.2 hrule)
  · have hcheap : (CostTable.ofGrammar .nested).cheapRules "<s>" = [0] := by decide
    have heven := (hinner.2.1 (Nat.lt_succ_self 0) (by rw [hcheap]; decide)).ncard_wordsFor 0
    rw [hcheap] at heven
    exact heven List.mem_cons_self

/-- The cheap rules that a table lists and those that the costs of its rules give are the same in
the same order. So both orders choose alike, whichever grammar the costs are from. -/
theorem orders_choose_alike (g other : Grammar) (maxDepth : Nat) (nodeLimit : Option Nat) :
    (∀ symbol, Strategy.levelOrder.cheap (.ofGrammar other) symbol =
      Strategy.depthFirst.cheap (.ofGrammar other) symbol) ∧
    ∀ (σ : Type) (choose : Chooser σ) (site : Site) (growth : Growth σ),
      Run.chooseRule ⟨g, Strategy.levelOrder.cheap (.ofGrammar other), maxDepth, nodeLimit⟩ choose
          site growth =
        Run.chooseRule ⟨g, Strategy.depthFirst.cheap (.ofGrammar other), maxDepth, nodeLimit⟩ choose
          site growth := by
  have hcheap : Strategy.levelOrder.cheap (.ofGrammar other) =
      Strategy.depthFirst.cheap (.ofGrammar other) := by
    rw [Strategy.cheap_ofGrammar, Strategy.cheap_ofGrammar]
  exact ⟨congrFun hcheap, fun σ choose site growth => by rw [hcheap]⟩

/-- The symbols of `CostTable.circling` with other rules, for which its costs are wrong. -/
def Grammar.crossed : Grammar :=
  ⟨⟨[("<a>", [⟨["x"]⟩, ⟨["<b>"]⟩]), ("<b>", [⟨["y"]⟩])], by decide⟩⟩

theorem orders_choose_alike_crossed :
    (Strategy.depthFirst.cheap (.ofGrammar .crossed) "<a>" = [0] ∧
      Strategy.levelOrder.cheap (.ofGrammar CostTable.circling) "<a>" = [1] ∧
      Strategy.levelOrder.cheap (.ofGrammar CostTable.circling) "<b>" = []) ∧
    (∀ strategy : Strategy,
      Run.chooseRule ⟨.crossed, strategy.cheap (.ofGrammar CostTable.circling), 0, none⟩
          Source.choose ⟨1, "<a>", 1, [0]⟩ ⟨.single "<a>", .ofScript [7, 8]⟩ =
        some (.ok 1, ⟨.single "<a>", ⟨.script [8], 1, 0⟩⟩)) ∧
    ∀ strategy : Strategy,
      Run.chooseRule ⟨.crossed, strategy.cheap (.ofGrammar CostTable.circling), 0, none⟩
          Source.choose ⟨1, "<b>", 1, [0]⟩ ⟨.single "<a>", .ofScript [7, 8]⟩ =
        some (.error ⟨.unproductive "<b>", ⟨1, "<b>", 1, [0]⟩⟩,
          ⟨.single "<a>", .ofScript [7, 8]⟩) := by
  obtain ⟨hcheap, hchoices⟩ := orders_choose_alike .crossed CostTable.circling 0 none
  refine ⟨⟨by decide, ?_, ?_⟩, fun strategy => ?_, fun strategy => ?_⟩
  · exact (hcheap "<a>").trans (by decide)
  · exact (hcheap "<b>").trans (by decide)
  · cases strategy with
    | depthFirst => rfl
    | levelOrder => exact (hchoices Source Source.choose _ _).trans (by rfl)
  · cases strategy with
    | depthFirst => rfl
    | levelOrder => exact (hchoices Source Source.choose _ _).trans (by rfl)

end GrammarSampler

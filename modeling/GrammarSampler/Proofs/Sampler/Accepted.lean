import GrammarSampler.Proofs.Engine.Language
import GrammarSampler.Proofs.Sampler.Strict
import GrammarSampler.Proofs.Text.Bytes

/-!
# Grammars that a strict configuration accepts

A strict configuration accepts the grammars in which every token in angle brackets has an entry, and
of any other grammar it tells the least token without one. No token in angle brackets is left in the
trees of an accepted grammar, so a text is made of all the leaves of its tree.
-/

namespace GrammarSampler

variable {g : Grammar} {start symbol token : String} {maxDepth : Nat} {tree : Tree}

/-! ## Closed grammars -/

namespace Grammar

/-- Every token in angle brackets has an entry. -/
def Closed (g : Grammar) : Prop :=
  ∀ symbol, ∀ rule ∈ g.rulesOf symbol, ∀ token ∈ rule.tokens,
    isBracketed token = true → g.defines token = true

/-- Whether a rule holds `token`, which is in angle brackets and has no entry. -/
def Lacks (g : Grammar) (token : String) : Prop :=
  isBracketed token = true ∧ g.defines token = false ∧
    ∃ symbol, ∃ rule ∈ g.rulesOf symbol, token ∈ rule.tokens

/-- Whether `symbol` is the first in the order of bytes that the grammar lacks. -/
def LacksFirst (g : Grammar) (symbol : String) : Prop :=
  g.Lacks symbol ∧ ∀ token, g.Lacks token → Text.bytes symbol ≤ Text.bytes token

theorem undefinedSymbols_eq_nil_iff : g.undefinedSymbols = [] ↔ g.Closed := by
  rw [List.eq_nil_iff_forall_not_mem]
  constructor
  · intro hnone symbol rule hrule token htoken hbracketed
    by_contra hdefines
    exact hnone token (mem_undefinedSymbols_iff.2
      ⟨hbracketed, Bool.eq_false_iff.2 hdefines, symbol, rule, hrule, htoken⟩)
  · intro hclosed token hmem
    obtain ⟨hbracketed, hdefines, symbol, rule, hrule, htoken⟩ := mem_undefinedSymbols_iff.1 hmem
    have hdefined := hclosed symbol rule hrule token htoken hbracketed
    exact Bool.false_ne_true (hdefines.symm.trans hdefined)

/-- The undefined symbols are listed in the order of their bytes. -/
theorem lacksFirst_of_undefinedSymbols_eq_cons {more : List String}
    (h : g.undefinedSymbols = symbol :: more) : g.LacksFirst symbol := by
  have hsorted : (symbol :: more).Pairwise (· < ·) := by
    rw [← h]
    exact SymbolMap.keys_sorted _
  refine ⟨mem_undefinedSymbols_iff.1 (by rw [h]; exact List.mem_cons_self), fun token hlacks => ?_⟩
  have hmem : token ∈ symbol :: more := by
    rw [← h]
    exact mem_undefinedSymbols_iff.2 hlacks
  rcases List.mem_cons.1 hmem with rfl | hmem
  · exact List.le_refl _
  · exact List.le_of_lt (Text.bytes_lt_bytes_iff.2 ((List.pairwise_cons.1 hsorted).1 token hmem))

theorem Reaches.defines_of_closed (h : g.Reaches start symbol) (hclosed : g.Closed)
    (hstart : g.defines start = true ∨ isBracketed start = false)
    (hbracketed : isBracketed symbol = true) : g.defines symbol = true := by
  cases h with
  | refl => exact hstart.resolve_right (by rw [hbracketed]; decide)
  | step _ hrule htoken => exact hclosed _ _ hrule _ htoken hbracketed

end Grammar

/-! ## Texts made of all leaves -/

namespace Tree

/-- The leaves as a walk visits them. -/
def leaves (t : Tree) : List Node := (t.walk.map (·.2)).filter (·.state == .leaf)

/-- Whether no leaf is left out of the text. -/
structure SpeltInFull (t : Tree) : Prop where
  unbracketed : ∀ node ∈ t.nodes, node.state = .leaf → isBracketed node.symbol = false
  /-- A walk visits every leaf once. -/
  leaves_perm : t.leaves.Perm (t.nodes.toList.filter (·.state == .leaf))
  text_eq : t.text = String.join (t.leaves.map Node.symbol)

theorem join_ownText {nodes : List Node}
    (h : ∀ node ∈ nodes, node.state = .leaf → isBracketed node.symbol = false) :
    String.join (nodes.map Node.ownText) =
      String.join ((nodes.filter (·.state == .leaf)).map Node.symbol) := by
  induction nodes with
  | nil => rfl
  | cons node nodes ih =>
      obtain ⟨hnode, hnodes⟩ := List.forall_mem_cons.1 h
      obtain ⟨symbol, state⟩ := node
      rw [List.map_cons, String.join_cons, ih hnodes]
      cases state with
      | leaf =>
          have hsymbol : isBracketed symbol = false := hnode rfl
          simp only [Node.ownText, hsymbol, List.filter_cons, beq_self_eq_true, List.map_cons,
            String.join_cons, Bool.false_eq_true, ↓reduceIte]
      | pending => exact String.empty_append
      | expanded => exact String.empty_append

theorem speltInFull_of_walk_perm {t : Tree} (hwalk : (t.walk.map (·.2)).Perm t.nodes.toList)
    (h : ∀ node ∈ t.nodes, node.state = .leaf → isBracketed node.symbol = false) :
    t.SpeltInFull where
  unbracketed := h
  leaves_perm := hwalk.filter _
  text_eq := by
    have hwalked : ∀ node ∈ t.walk.map (·.2),
        node.state = .leaf → isBracketed node.symbol = false := fun node hnode =>
      h node (Array.mem_toList_iff.1 (hwalk.mem_iff.1 hnode))
    rw [leaves, ← join_ownText hwalked, List.map_map, Tree.text_eq]
    rfl

end Tree

theorem speltInFull_of_derive {strategy : Strategy} {nodeLimit : Option Nat}
    {source after : Source} (hclosed : g.Closed)
    (hstart : g.defines start = true ∨ isBracketed start = false)
    (h : derive g (.ofGrammar g) strategy nodeLimit start maxDepth source =
      some (.ok tree, after)) : tree.SpeltInFull := by
  have hunbracketed : ∀ node ∈ tree.nodes, node.state = .leaf →
      isBracketed node.symbol = false := by
    intro node hnode hleaf
    obtain ⟨hdefines, hreaches⟩ := leaf_of_derive h hnode hleaf
    refine Bool.eq_false_iff.2 fun hbracketed => ?_
    exact Bool.false_ne_true
      (hdefines.symm.trans (hreaches.defines_of_closed hclosed hstart hbracketed))
  obtain ⟨d, hyields⟩ := (Setting.grow_eq_ok_iff (Source.obeys_choose _)).1 (derive_eq_ok_iff.1 h)
  obtain rfl : tree = strategy.treeOf d := hyields.tree
  exact Tree.speltInFull_of_walk_perm (strategy.walk_perm d) hunbracketed

/-! ## Accepted grammars -/

namespace Sampler

variable {s : Sampler} {config : Config} {source after : Source}

theorem exists_ofGrammar_eq_ok_iff :
    (∃ s, Sampler.ofGrammar g config = .ok s) ↔ (config.strict = true → g.Closed) := by
  simp only [ofGrammar_eq_ok_iff, Grammar.undefinedSymbols_eq_nil_iff, exists_eq_right]

theorem exists_ofGrammar_eq_error (hstrict : config.strict = true) (hclosed : ¬ g.Closed) :
    ∃ symbol, Sampler.ofGrammar g config = .error (.undefinedSymbol symbol) ∧
      g.LacksFirst symbol := by
  cases hundefined : g.undefinedSymbols with
  | nil => exact absurd (Grammar.undefinedSymbols_eq_nil_iff.1 hundefined) hclosed
  | cons symbol more =>
      refine ⟨symbol, ?_, Grammar.lacksFirst_of_undefinedSymbols_eq_cons hundefined⟩
      simp only [ofGrammar, hundefined, hstrict, ↓reduceIte]

/-- A tree that a sampler derives follows its grammar, strict or not. -/
theorem derive_of_derive_eq_ok (h : s.derive start maxDepth source = some (.ok tree, after)) :
    GrammarSampler.derive s.grammar (.ofGrammar s.grammar) s.config.strategy s.config.nodeLimit
      start maxDepth source = some (.ok tree, after) := by
  rw [derive, s.costs_eq] at h
  split at h
  · cases h
  · exact h

/-- A strict configuration accepts the closed grammars and tells of any other the first token that
it lacks. A sampler accepted so derives trees that are spelt in full, whatever configurations it is
given later. -/
theorem strict_exact_and_lasting (g : Grammar) (config : Config) :
    (config.strict = false → ∃ s, Sampler.ofGrammar g config = .ok s) ∧
    (config.strict = true →
      ((∃ s, Sampler.ofGrammar g config = .ok s) ↔ g.Closed) ∧
      (¬ g.Closed → ∃ symbol, Sampler.ofGrammar g config = .error (.undefinedSymbol symbol) ∧
        g.LacksFirst symbol) ∧
      ∀ s, Reached g config s →
        ∀ start, g.defines start = true ∨ isBracketed start = false →
          ∀ maxDepth source tree after,
            s.derive start maxDepth source = some (.ok tree, after) → tree.SpeltInFull) := by
  refine ⟨fun hlax => exists_ofGrammar_eq_ok_iff.2 fun hstrict => ?_, fun hstrict =>
    ⟨exists_ofGrammar_eq_ok_iff.trans (forall_prop_of_true hstrict),
      exists_ofGrammar_eq_error hstrict, ?_⟩⟩
  · exact absurd (hlax.symm.trans hstrict) Bool.false_ne_true
  · intro s hs start hstart maxDepth source tree after hderive
    have hclosed : g.Closed :=
      Grammar.undefinedSymbols_eq_nil_iff.1 (hs.undefinedSymbols_eq_nil hstrict)
    have hgrown := derive_of_derive_eq_ok hderive
    rw [hs.grammar_eq] at hgrown
    exact speltInFull_of_derive hclosed hstart hgrown

/-- Of the two tokens that have no entry the later has the smaller bytes. -/
def lacking : Grammar :=
  ⟨⟨[("<s>", [⟨["a", "<é>", "<z>"]⟩])], List.pairwise_singleton _ _⟩⟩

theorem strict_exact_and_lasting_examples :
    (Config.usual.strict = false ∧ ∃ s, Sampler.ofGrammar lacking .usual = .ok s) ∧
    (strictConfig.strict = true ∧ ¬ lacking.Closed ∧
      (¬ ∃ s, Sampler.ofGrammar lacking strictConfig = .ok s) ∧
      Sampler.ofGrammar lacking strictConfig = .error (.undefinedSymbol "<z>") ∧
      lacking.LacksFirst "<z>") ∧
    Reached .nested strictConfig nested ∧ Grammar.nested.defines "<s>" = true ∧
      nested.derive "<s>" 0 (.ofScript [9223372036854775808]) =
        some (.ok Tree.nested, ⟨.script [], 1, 1⟩) ∧
      Tree.nested.SpeltInFull := by
  have hopen : ¬ lacking.Closed := Grammar.undefinedSymbols_eq_nil_iff.not.1 (by decide)
  have herror : Sampler.ofGrammar lacking strictConfig = .error (.undefinedSymbol "<z>") := rfl
  obtain ⟨haccepts, hrefuses, -⟩ := (strict_exact_and_lasting lacking strictConfig).2 rfl
  obtain ⟨symbol, htold, hfirst⟩ := hrefuses hopen
  obtain rfl : symbol = "<z>" := by
    rw [herror] at htold
    cases htold
    rfl
  -- made under the strict configuration, and given the usual one later
  have hreached : Reached .nested strictConfig nested :=
    .configured (.made (ofGrammar_eq_ok_iff.2 ⟨by decide, rfl⟩)) .usual
  have hderive : nested.derive "<s>" 0 (.ofScript [9223372036854775808]) =
      some (.ok .nested, ⟨.script [], 1, 1⟩) := by
    decide +kernel
  have hdefines : Grammar.nested.defines "<s>" = true := by decide
  have hlasting := ((strict_exact_and_lasting .nested strictConfig).2 rfl).2.2
  exact ⟨⟨rfl, (strict_exact_and_lasting lacking .usual).1 rfl⟩,
    ⟨rfl, hopen, haccepts.not.2 hopen, herror, hfirst⟩,
    hreached, hdefines, hderive, hlasting _ hreached "<s>" (.inl hdefines) _ _ _ _ hderive⟩

end Sampler

end GrammarSampler

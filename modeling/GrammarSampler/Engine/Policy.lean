import GrammarSampler.Cost.Table
import GrammarSampler.Tree

/-!
# The choice of rules

Down to a given depth any rule of a symbol may be chosen, and below it only the cheapest ones.
What chooses is a parameter: it may draw at random, follow a plan, or keep a record.
-/

namespace GrammarSampler

structure Site where
  id : Nat
  symbol : String
  depth : Nat
  /-- The child indices on the way from the node up to the root. -/
  path : List Nat
  deriving DecidableEq, Repr, Inhabited

namespace Site

def root (symbol : String) : Site := ⟨0, symbol, 0, []⟩

def child (site : Site) (index : Nat) (symbol : String) (id : Nat) : Site :=
  ⟨id, symbol, site.depth + 1, index :: site.path⟩

end Site

inductive Options where
  | any (count : Nat)
  | among (indices : List Nat)
  deriving DecidableEq, Repr

/-- Chooses one of the options at a site; none if the choice is never made. -/
abbrev Chooser (σ : Type) := Site → Options → σ → Option (Nat × σ)

/-- What governs a derivation. -/
structure Setting where
  grammar : Grammar
  /-- The rules that may be chosen for a symbol below `maxDepth`. -/
  cheap : String → List Nat
  /-- The deepest level at which any rule may be chosen. -/
  maxDepth : Nat
  nodeLimit : Option Nat := none

namespace Setting

/-- The rules that may be chosen for `symbol` at `depth`. -/
def options (s : Setting) (symbol : String) (depth : Nat) : Except Fault Options :=
  match s.grammar.rulesOf symbol with
  | [] => .error (.emptyRuleSet symbol)
  | rules =>
    if depth ≤ s.maxDepth then .ok (.any rules.length)
    else match s.cheap symbol with
      | [] => .error (.unproductive symbol)
      | indices => .ok (.among indices)

def tokens (s : Setting) (symbol : String) (rule : Nat) : List String :=
  match (s.grammar.rulesOf symbol)[rule]? with
  | some rule => rule.tokens
  | none => []

/-- The state of a new node: a token with an entry waits for its rule. -/
def stateOf (s : Setting) (token : String) : NodeState :=
  if s.grammar.defines token then .pending else .leaf

/-- The fault of a tree with `size` nodes, if they are too many. -/
def checkSize (s : Setting) (size : Nat) : Except Fault Unit :=
  match s.nodeLimit with
  | some limit => if limit < size then .error (.nodeLimit limit) else .ok ()
  | none => .ok ()

/--
More levels than a tree can have: with the costs of its own grammar a derivation ends within
`maxDepth` and as many levels more as there are symbols, and with other costs before its nodes
cannot be counted in a word of 64 bits.
-/
def levels (s : Setting) : Nat := s.maxDepth + s.grammar.size + (1 <<< 64)

end Setting

end GrammarSampler

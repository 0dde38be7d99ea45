import GrammarSampler.Grammar.Basic

/-!
# Derivations

A derivation says how a symbol is expanded, without saying in which order. It is measured by its
height, the most expansions on a way down, and it spells the tokens that are left at its ends.
-/

namespace GrammarSampler

inductive Derivation where
  | leaf (symbol : String)
  | pending (symbol : String)
  | node (symbol : String) (rule : Nat) (children : List Derivation)

namespace Derivation

def root : Derivation → String
  | .leaf symbol | .pending symbol | .node symbol _ _ => symbol

mutual

/-- The most expansions on a way down. -/
def height : Derivation → Nat
  | .leaf _ | .pending _ => 0
  | .node _ _ children => heights children + 1

def heights : List Derivation → Nat
  | [] => 0
  | d :: more => max (height d) (heights more)

end

mutual

def size : Derivation → Nat
  | .leaf _ | .pending _ => 1
  | .node _ _ children => sizes children + 1

def sizes : List Derivation → Nat
  | [] => 0
  | d :: more => size d + sizes more

end

mutual

/-- What the leaves spell from left to right; leaves in angle brackets spell nothing. -/
def text : Derivation → String
  | .leaf symbol => if isBracketed symbol then "" else symbol
  | .pending _ => ""
  | .node _ _ children => texts children

def texts : List Derivation → String
  | [] => ""
  | d :: more => text d ++ texts more

end

/--
Whether a derivation follows the rules of `g` and stops only at symbols of which `ends` holds. The
children of a node are the tokens of its rule.
-/
inductive Follows (g : Grammar) (ends : String → Prop) : Derivation → Prop
  | leaf {symbol : String} (h : ends symbol) : Follows g ends (.leaf symbol)
  | node {symbol : String} {index : Nat} {rule : Rule} {children : List Derivation}
      (hrule : (g.rulesOf symbol)[index]? = some rule)
      (hroots : children.map root = rule.tokens)
      (hchildren : ∀ child ∈ children, Follows g ends child) :
      Follows g ends (.node symbol index children)

/-- Whether a derivation expands every symbol that has an entry. -/
def Complete (g : Grammar) (d : Derivation) : Prop :=
  d.Follows g fun symbol => g.defines symbol = false

end Derivation

end GrammarSampler

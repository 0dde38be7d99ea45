import GrammarSampler.Engine.Policy
import GrammarSampler.Random.Source

/-!
# Deriving a tree

The steps that every engine is made of, and the two orders in which they follow each other. The
steps act on a tree and on what the chooser draws from, and they keep both when they fail. A
derivation starts at a root and follows one of the orders, and its choices may be drawn from a
random source.
-/

namespace GrammarSampler

variable {σ : Type}

/-- A tree that grows, and what choices are drawn from. -/
structure Growth (σ : Type) where
  tree : Tree
  source : σ

/-- Why a derivation stops, and the site that it stops at. -/
structure Failure where
  fault : Fault
  site : Site
  deriving DecidableEq, Repr

/-- A step of a derivation; it gives nothing if it never ends. -/
abbrev Run (σ : Type) := ExceptT Failure (StateT (Growth σ) Option)

namespace Run

def endless {α : Type} : Run σ α := fun _ => none

/-- The step that stops at `site` if `result` is a fault. -/
def require {α : Type} (site : Site) (result : Except Fault α) : Run σ α :=
  match result with
  | .ok value => pure value
  | .error fault => throw ⟨fault, site⟩

def chooseRule (s : Setting) (choose : Chooser σ) (site : Site) : Run σ Nat := do
  let options ← require site (s.options site.symbol site.depth)
  fun growth =>
    (choose site options growth.source).map fun (rule, source) => (.ok rule, { growth with source })

def addChild (s : Setting) (parent : Site) (index : Nat) (token : String) : Run σ Site := do
  let id ← modifyGet fun growth =>
    (growth.tree.size, { growth with tree := growth.tree.push token (s.stateOf token) })
  require parent (s.checkSize (id + 1))
  return parent.child index token id

/-- Adds the children of `parent` from place `index` on, and visits each before the next. -/
def addChildren (s : Setting) (visit : Site → Run σ Unit) (parent : Site) (index : Nat) :
    List String → Run σ (List Site)
  | [] => return []
  | token :: more => do
    let child ← addChild s parent index token
    visit child
    return child :: (← addChildren s visit parent (index + 1) more)

def settle (id : Nat) (state : NodeState) : Run σ Unit :=
  modify fun growth => { growth with tree := growth.tree.resolve id state }

end Run

/-!
## Depth first

A node is expanded as soon as it is added, and its right neighbours are added after all that is
below it.
-/

namespace DepthFirst

/-- Expands a site and all below it, at most `levels` levels deep. -/
def expand (s : Setting) (choose : Chooser σ) : Nat → Site → Run σ Unit
  | 0, _ => Run.endless
  | levels + 1, site => do
    let rule ← Run.chooseRule s choose site
    let visit child :=
      if s.grammar.defines child.symbol then expand s choose levels child else pure ()
    let children ← Run.addChildren s visit site 0 (s.tokens site.symbol rule)
    Run.settle site.id (.expanded rule (children.map (·.id)))

end DepthFirst

/-!
## Level by level

All nodes of a level are expanded, from left to right, before any node of the next level.
-/

namespace LevelOrder

/-- Expands a site, and gives the children that wait for their rules. -/
def expand (s : Setting) (choose : Chooser σ) (site : Site) : Run σ (List Site) := do
  let rule ← Run.chooseRule s choose site
  let children ← Run.addChildren s (fun _ => pure ()) site 0 (s.tokens site.symbol rule)
  Run.settle site.id (.expanded rule (children.map (·.id)))
  return children.filter (s.grammar.defines ·.symbol)

/-- Expands the sites of a level, and gives those of the next. -/
def expandLevel (s : Setting) (choose : Chooser σ) : List Site → Run σ (List Site)
  | [] => return []
  | site :: more => do
    let next ← expand s choose site
    return next ++ (← expandLevel s choose more)

/-- Expands the sites of a level and all below it, at most `levels` levels deep. -/
def expandAll (s : Setting) (choose : Chooser σ) : Nat → List Site → Run σ Unit
  | _, [] => pure ()
  | 0, _ :: _ => Run.endless
  | levels + 1, sites => do expandAll s choose levels (← expandLevel s choose sites)

end LevelOrder

/-! ## Derivations -/

inductive Strategy where
  | levelOrder
  | depthFirst
  deriving DecidableEq, Repr, Inhabited

/-- How a derivation ends: the tree or why there is none, with all that it leaves behind. -/
abbrev Ending (σ : Type) := Except Failure Unit × Growth σ

/-- Expands the root `start` in the given order; none if the derivation never ends. -/
def Setting.grow {σ : Type} (s : Setting) (strategy : Strategy) (choose : Chooser σ)
    (start : String) (source : σ) : Option (Ending σ) :=
  let root := Site.root start
  let run : Run σ Unit :=
    if s.grammar.defines start then
      match strategy with
      | .levelOrder => LevelOrder.expandAll s choose s.levels [root]
      | .depthFirst => DepthFirst.expand s choose s.levels root
    else Run.settle root.id .leaf
  run ⟨.single start, source⟩

namespace Strategy

/--
The rules that may be chosen below the depth budget. Level order looks up the list in the table,
and depth first compares the costs of the rules each time.
-/
def cheap (strategy : Strategy) (t : CostTable) (symbol : String) : List Nat :=
  match strategy with
  | .levelOrder => t.cheapRules symbol
  | .depthFirst => Cost.tied (t.ruleCosts symbol)

end Strategy

/--
Draws a rule index from a source. Among all rules a word of 64 bits decides, and among cheapest
rules one of 32 bits if they can be counted in it.
-/
def Source.choose : Chooser Source
  | _, .any count, s => s.below .w64 count
  | _, .among indices, s =>
    (s.below (.ofLength indices.length) indices.length).map fun (place, after) =>
      (indices[place]?.getD 0, after)

/-- The tree derived from `start` by random choices, or why there is none, and the source after. -/
def derive (g : Grammar) (costs : CostTable) (strategy : Strategy) (nodeLimit : Option Nat)
    (start : String) (maxDepth : Nat) (source : Source) : Option (Except Fault Tree × Source) :=
  let s : Setting := ⟨g, strategy.cheap costs, maxDepth, nodeLimit⟩
  (s.grow strategy Source.choose start source).map fun (result, growth) =>
    match result with
    | .ok () => (.ok growth.tree, growth.source)
    | .error failure => (.error failure.fault, growth.source)

end GrammarSampler

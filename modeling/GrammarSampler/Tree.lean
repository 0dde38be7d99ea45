import GrammarSampler.Grammar.Basic

/-!
# Derivation trees

A tree is the list of its nodes in the order in which they were added. A node is named by its
place in the list, and the root is node 0.
-/

namespace GrammarSampler

inductive NodeState where
  | pending
  | leaf
  | expanded (rule : Nat) (children : List Nat)
  deriving DecidableEq, Repr, Inhabited

structure Node where
  symbol : String
  state : NodeState
  deriving DecidableEq, Repr, Inhabited

def Node.children (node : Node) : List Nat :=
  match node.state with
  | .expanded _ children => children
  | .pending | .leaf => []

structure Tree where
  nodes : Array Node
  deriving DecidableEq, Repr, Inhabited

namespace Tree

def single (symbol : String) : Tree := ⟨#[⟨symbol, .pending⟩]⟩

def size (t : Tree) : Nat := t.nodes.size

/-- Adds a node, whose name is the former size. -/
def push (t : Tree) (symbol : String) (state : NodeState) : Tree := ⟨t.nodes.push ⟨symbol, state⟩⟩

def resolve (t : Tree) (id : Nat) (state : NodeState) : Tree :=
  ⟨t.nodes.modify id fun node => { node with state }⟩

def isComplete (t : Tree) : Bool := t.nodes.all fun node => node.state != .pending

@[simp]
theorem size_push (t : Tree) (symbol : String) (state : NodeState) :
    (t.push symbol state).size = t.size + 1 := by
  simp [push, size]

@[simp]
theorem size_resolve (t : Tree) (id : Nat) (state : NodeState) :
    (t.resolve id state).size = t.size := by
  simp [resolve, size]

end Tree

/-!
## Walks through a tree

The nodes that hang on the root are visited each before its children, and the children from left
to right. The nodes still to visit are held in a list, so the depth of a tree does not matter. A
walk makes at most as many steps as the tree has nodes, which is enough for a tree in which every
node hangs in one place.
-/

/-- What a node adds to the text: a token that stays as it is, unless it is in angle brackets. -/
def Node.ownText (node : Node) : String :=
  match node.state with
  | .leaf => if isBracketed node.symbol then "" else node.symbol
  | .pending | .expanded _ _ => ""

namespace Tree

/-- The nodes below `stack`, a list of nodes with their depths, in at most `fuel` steps. -/
def walkFrom (t : Tree) : Nat → List (Nat × Nat) → List (Nat × Node)
  | 0, _ => []
  | _, [] => []
  | fuel + 1, (depth, id) :: stack =>
    match t.nodes[id]? with
    | none => walkFrom t fuel stack
    | some node => (depth, node) :: walkFrom t fuel (node.children.map (depth + 1, ·) ++ stack)

def walk (t : Tree) : List (Nat × Node) := t.walkFrom t.size [(0, 0)]

def depth (t : Tree) : Nat := (t.walk.map (·.1)).foldl max 0

/-- The texts of the nodes below `stack`, in at most `fuel` steps. -/
def textsFrom (t : Tree) : Nat → List Nat → List String
  | 0, _ => []
  | _, [] => []
  | fuel + 1, id :: stack =>
    match t.nodes[id]? with
    | none => textsFrom t fuel stack
    | some node => node.ownText :: textsFrom t fuel (node.children ++ stack)

/-- The text that the leaves spell from left to right. -/
def text (t : Tree) : String := String.join (t.textsFrom t.size [0])

end Tree

end GrammarSampler

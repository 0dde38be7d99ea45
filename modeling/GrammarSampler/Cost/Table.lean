import GrammarSampler.Cost.Basic
import GrammarSampler.Grammar.Basic
import GrammarSampler.Json.Printer

/-!
# Cost tables

A rule costs one more than the dearest symbol in it, and a symbol costs what its cheapest rule
costs. The costs are the least solution: every symbol with rules starts at infinity, and sweeps
over the grammar lower them until nothing changes. A table holds what every symbol and every rule
of a grammar costs, and which rules of a symbol are cheapest.
-/

namespace GrammarSampler

namespace Cost

/-- The cost of a rule where symbols cost what `costOf` says; other tokens cost nothing. -/
def ofRule (costOf : String → Option Cost) (rule : Rule) : Cost :=
  succ ((rule.tokens.filterMap costOf).foldl max (.finite 0))

/-- The least cost of some rules; none if there is no rule. -/
def least? (costOf : String → Option Cost) (rules : List Rule) : Option Cost :=
  (rules.map (ofRule costOf)).min?

/-! ## Sweeps -/

/-- Before the first sweep, a symbol without rules costs nothing and all others infinity. -/
def initial (g : Grammar) : SymbolMap Cost :=
  g.rules.map fun _ rules => if rules.isEmpty then .finite 0 else .infinite

/-- Lowers the cost of a symbol to that of its cheapest rule. -/
def lower (known : SymbolMap Cost) (symbol : String) (rules : List Rule) : SymbolMap Cost :=
  match least? known.get? rules with
  | none => known
  | some cost =>
    if cost < (known.get? symbol).getD .infinite then known.insert symbol cost else known

/-- Lowers the costs of the symbols in the order given, each at once for those after it. -/
def sweep (order : List (String × List Rule)) (known : SymbolMap Cost) : SymbolMap Cost :=
  order.foldl (fun known (symbol, rules) => lower known symbol rules) known

/-- Sweeps in the order of the symbols until a sweep changes nothing, at most `fuel` times. -/
def settle (g : Grammar) : Nat → SymbolMap Cost → SymbolMap Cost
  | 0, known => known
  | fuel + 1, known =>
    let next := sweep g.rules.entries known
    if next = known then known else settle g fuel next

/--
The cost of every symbol with an entry. Each sweep but the last finds the cost of a symbol, so
there are no more sweeps than symbols, and one.
-/
def ofSymbols (g : Grammar) : SymbolMap Cost := settle g (g.size + 1) (initial g)

/-! ## Cheapest rules -/

/-- The indices, in order, at which the least of `costs` stands, if it is finite. -/
def cheapest (costs : List Cost) : List Nat :=
  let least := costs.min?.getD .infinite
  costs.zipIdx.filterMap fun (cost, index) =>
    if cost.isFinite && cost == least then some index else none

/-- The indices, in order, of the finite costs that equal the least of `costs`, which there may not
be. -/
def tied (costs : List Cost) : List Nat :=
  let least := costs.min?
  costs.zipIdx.filterMap fun (cost, index) =>
    if cost.isFinite && some cost == least then some index else none

end Cost

/-! ## Tables -/

structure SymbolCosts where
  cost : Cost
  rules : List Cost
  /-- The indices of the cheapest rules, in increasing order. -/
  cheap : List Nat
  deriving DecidableEq, Repr, Inhabited

structure CostTable where
  entries : SymbolMap SymbolCosts
  deriving DecidableEq

namespace CostTable

def ofGrammar (g : Grammar) : CostTable :=
  let known := Cost.ofSymbols g
  ⟨g.rules.map fun symbol rules =>
    let costs := rules.map (Cost.ofRule known.get?)
    ⟨(known.get? symbol).getD .infinite, costs, Cost.cheapest costs⟩⟩

/-- The cost of a token; one without an entry costs nothing. -/
def symbolCost (t : CostTable) (symbol : String) : Cost :=
  ((t.entries.get? symbol).map (·.cost)).getD (.finite 0)

def ruleCosts (t : CostTable) (symbol : String) : List Cost :=
  ((t.entries.get? symbol).map (·.rules)).getD []

def ruleCost? (t : CostTable) (symbol : String) (index : Nat) : Option Cost :=
  (t.ruleCosts symbol)[index]?

/-- The indices of the cheapest rules; none if the symbol has no rules or they all cost infinity. -/
def cheapRules (t : CostTable) (symbol : String) : List Nat :=
  ((t.entries.get? symbol).map (·.cheap)).getD []

/-- The cost of a rule, which need not be one of the grammar. -/
def expansionCost (t : CostTable) (rule : Rule) : Cost :=
  Cost.ofRule (fun symbol => (t.entries.get? symbol).map (·.cost)) rule

end CostTable

/-! ## Reports -/

def Cost.toJson : Cost → Json
  | .finite n => .nat n
  | .infinite => .text Cost.infinite.text

def SymbolCosts.toJson (c : SymbolCosts) : Json :=
  .record [
    ("cost", c.cost.toJson),
    ("rules", .array (c.rules.map Cost.toJson)),
    ("cheap", .array (c.cheap.map Json.nat))]

/-- The table as an object with a member for each symbol, in increasing order. -/
def CostTable.toJson (t : CostTable) : Json :=
  .record (t.entries.entries.map fun (symbol, costs) => (symbol, costs.toJson))

end GrammarSampler

import GrammarSampler.Engine.Derive
import GrammarSampler.Json.Parser

/-!
# Samplers

A sampler is a grammar with its costs and a configuration, ready to derive texts. The configuration
says how, and serves where a text is derived without further word. It is written in JSON as an
object of all its fields, and read from an object of some of them, in any order and among members
of other names, or from a list of the first fields; fields that are not given have their usual
values.
-/

namespace GrammarSampler

structure Config where
  startSymbol : String := "<start>"
  /-- The deepest level at which any rule may be chosen. -/
  maxDepth : Nat := 10
  strategy : Strategy := .levelOrder
  nodeLimit : Option Nat := none
  /-- Whether every token in angle brackets has to have an entry. -/
  strict : Bool := false
  deriving DecidableEq, Repr

/-- The configuration that is meant where none is given. -/
def Config.usual : Config := {}

instance : Inhabited Config := ⟨Config.usual⟩

def Strategy.name : Strategy → String
  | .levelOrder => "queue"
  | .depthFirst => "recursive"

def Strategy.ofName? (name : String) : Option Strategy :=
  [Strategy.levelOrder, .depthFirst].find? (·.name == name)

theorem Strategy.ofName?_name (s : Strategy) : Strategy.ofName? s.name = some s := by
  cases s <;> rfl

/-! ## Fields -/

inductive Config.Field where
  | startSymbol
  | maxDepth
  | strategy
  | nodeLimit
  | strict
  deriving DecidableEq, Repr

namespace Config.Field

def name : Field → String
  | .startSymbol => "start_symbol"
  | .maxDepth => "max_depth"
  | .strategy => "strategy"
  | .nodeLimit => "node_limit"
  | .strict => "strict"

def all : List Field := [.startSymbol, .maxDepth, .strategy, .nodeLimit, .strict]

def ofName? (name : String) : Option Field := all.find? (·.name == name)

end Config.Field

/-! ## Writing -/

def Strategy.toJson (s : Strategy) : Json := .text s.name

def Config.valueOf (c : Config) : Config.Field → Json
  | .startSymbol => .text c.startSymbol
  | .maxDepth => .nat c.maxDepth
  | .strategy => c.strategy.toJson
  | .nodeLimit => match c.nodeLimit with
    | some limit => .nat limit
    | none => .null
  | .strict => .bool c.strict

def Config.toJson (c : Config) : Json :=
  .record (Config.Field.all.map fun field => (field.name, c.valueOf field))

/-- The configuration as a JSON text on one line. -/
def Config.jsonText (c : Config) : String := c.toJson.compact

/-! ## Reading -/

/-- A strategy is written as its name, or as an object whose only member is its name with null. -/
def Strategy.ofJson? : Json → Option Strategy
  | .string (some name) => Strategy.ofName? name
  | .object [(some name, .null)] => Strategy.ofName? name
  | _ => none

/-- A limit of nodes is a number, or null for none. -/
def Config.limitOfJson? : Json → Option (Option Nat)
  | .null => some none
  | value => value.natural?.map some

/-- The configuration with another value of a field, if the value suits it. -/
def Config.set? (c : Config) (field : Config.Field) (value : Json) : Option Config :=
  match field with
  | .startSymbol => value.text?.map fun startSymbol => { c with startSymbol }
  | .maxDepth => value.natural?.map fun maxDepth => { c with maxDepth }
  | .strategy => (Strategy.ofJson? value).map fun strategy => { c with strategy }
  | .nodeLimit => (Config.limitOfJson? value).map fun nodeLimit => { c with nodeLimit }
  | .strict => value.bool?.map fun strict => { c with strict }

/-- Reads the members of an object in turn; no field may come again after it has been given. -/
def Config.setMembers? (given : List Config.Field) (c : Config) :
    List (String × Json) → Option Config
  | [] => some c
  | (name, value) :: more =>
    match Config.Field.ofName? name with
    | none => setMembers? given c more
    | some field =>
      if field ∈ given then none
      else (c.set? field value).bind fun c => setMembers? (field :: given) c more

/-- Reads the values of fields in turn; there may not be more values than fields. -/
def Config.setItems? (c : Config) : List Config.Field → List Json → Option Config
  | _, [] => some c
  | [], _ :: _ => none
  | field :: fields, value :: more => (c.set? field value).bind fun c => setItems? c fields more

def Config.ofJson? : Json → Option Config
  | .object members =>
    (Json.object members).members?.bind fun members => Config.setMembers? [] Config.usual members
  | .array items => Config.setItems? Config.usual Config.Field.all items
  | _ => none

/-- The configuration that a JSON text describes. -/
def Config.ofJsonText (source : String) : Except Fault Config :=
  match (Json.parse? source).bind Config.ofJson? with
  | some c => .ok c
  | none => .error .json

/-! ## Samplers -/

structure Sampler where
  grammar : Grammar
  costs : CostTable
  config : Config
  costs_eq : costs = CostTable.ofGrammar grammar

namespace Sampler

/--
The sampler of a grammar. A strict configuration is refused if a rule holds a token in angle
brackets that has no entry; the least of them is told.
-/
def ofGrammar (g : Grammar) (config : Config := Config.usual) : Except Fault Sampler :=
  match g.undefinedSymbols with
  | symbol :: _ =>
    if config.strict then .error (.undefinedSymbol symbol)
    else .ok ⟨g, .ofGrammar g, config, rfl⟩
  | [] => .ok ⟨g, .ofGrammar g, config, rfl⟩

def withConfig (s : Sampler) (config : Config) : Sampler := { s with config }

/--
The tree that random choices derive from `start`, and the source after it. Under a strict
configuration a start in angle brackets has to have an entry.
-/
def derive (s : Sampler) (start : String) (maxDepth : Nat) (source : Source) :
    Option (Except Fault Tree × Source) :=
  if s.config.strict && isBracketed start && !s.grammar.defines start then
    some (.error (.undefinedSymbol start), source)
  else
    GrammarSampler.derive s.grammar s.costs s.config.strategy s.config.nodeLimit start maxDepth
      source

/-- The text of the tree that random choices derive from `start`, and the source after it. -/
def sample (s : Sampler) (start : String) (maxDepth : Nat) (source : Source) :
    Option (Except Fault String × Source) :=
  (s.derive start maxDepth source).map fun (result, after) => (result.map Tree.text, after)

/-- A text from the start symbol and with the depth of the configuration. -/
def sampleStart (s : Sampler) (source : Source) : Option (Except Fault String × Source) :=
  s.sample s.config.startSymbol s.config.maxDepth source

end Sampler

end GrammarSampler

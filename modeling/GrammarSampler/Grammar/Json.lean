import GrammarSampler.Grammar.Basic
import GrammarSampler.Json.Parser
import GrammarSampler.Json.Printer

/-!
# Grammars in JSON

A grammar is an object of lists of rules, and a rule is a list of its tokens.
-/

namespace GrammarSampler

/-! ## Writing -/

def Rule.toJson (rule : Rule) : Json := .array (rule.tokens.map Json.text)

def Grammar.toJson (g : Grammar) : Json :=
  .record (g.rules.entries.map fun (symbol, rules) => (symbol, .array (rules.map Rule.toJson)))

def Grammar.jsonText (g : Grammar) : String := g.toJson.pretty

/-! ## Reading -/

def Rule.ofJson? (value : Json) : Option Rule := do
  let tokens ← (← value.items?).mapM Json.text?
  return ⟨tokens⟩

def Grammar.rulesOfJson? (value : Json) : Option (List Rule) := do
  (← value.items?).mapM Rule.ofJson?

/-- The grammar of an object with any keys; of two members with one key the later counts. -/
def Grammar.ofJson? (value : Json) : Option Grammar := do
  let entries ← (← value.members?).mapM fun (symbol, rules) => do
    return (symbol, ← Grammar.rulesOfJson? rules)
  return ⟨.ofList entries⟩

/-- The grammar that a JSON text describes, whatever its keys are. -/
def Grammar.ofLooseJsonText (source : String) : Except Fault Grammar :=
  match (Json.parse? source).bind Grammar.ofJson? with
  | some g => .ok g
  | none => .error .json

/-- The grammar that a JSON text describes. Every key has to be in angle brackets. -/
def Grammar.ofJsonText (source : String) : Except Fault Grammar :=
  match Grammar.ofLooseJsonText source with
  | .error fault => .error fault
  | .ok g => (g.symbols.forM Grammar.checkSymbol).map fun () => g

end GrammarSampler

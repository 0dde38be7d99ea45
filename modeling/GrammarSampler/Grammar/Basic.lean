import GrammarSampler.Fault
import GrammarSampler.SymbolMap.Basic

/-!
# Grammars

A grammar gives some symbols a list of rules. The order of a symbol's rules is fixed, so a rule is
named by its index. A symbol with an entry may have no rules, and a token without an entry stands
for itself. A token of a rule is any text, and one in angle brackets is meant to name a symbol.
-/

namespace GrammarSampler

/-! ## Symbols -/

/-- Whether `token` is written in angle brackets; the brackets may be empty, but there are two. -/
def isBracketed (token : String) : Bool :=
  token.toList.head? == some '<' && token.toList.getLast? == some '>'

/-- Whether `token` is in angle brackets and closes at its first `>`. -/
def isPlainlyBracketed (token : String) : Bool :=
  isBracketed token && !token.toList.dropLast.contains '>'

theorem isBracketed_of_isPlainlyBracketed {token : String} (h : isPlainlyBracketed token = true) :
    isBracketed token = true := by
  simp only [isPlainlyBracketed, Bool.and_eq_true] at h
  exact h.1

/-! ## Rules -/

/-- One way to expand a symbol: the tokens that take its place. -/
structure Rule where
  tokens : List String
  deriving DecidableEq, Repr, Inhabited

namespace Rule

def isEmpty (rule : Rule) : Bool := rule.tokens.isEmpty

def brackets (rule : Rule) : List String := rule.tokens.filter isBracketed

end Rule

structure Grammar where
  rules : SymbolMap (List Rule)
  deriving DecidableEq

namespace Grammar

instance : EmptyCollection Grammar := ⟨⟨∅⟩⟩

instance : Inhabited Grammar := ⟨∅⟩

/-! ## What a grammar holds -/

/-- Whether `symbol` has an entry, with or without rules. -/
def defines (g : Grammar) (symbol : String) : Bool := g.rules.contains symbol

/-- The rules of `symbol`; none if it has no entry. -/
def rulesOf (g : Grammar) (symbol : String) : List Rule := (g.rules.get? symbol).getD []

def symbols (g : Grammar) : List String := g.rules.keys

def size (g : Grammar) : Nat := g.rules.size

def isEmpty (g : Grammar) : Bool := g.rules.isEmpty

/-- The tokens in angle brackets that have no entry, each once and in increasing order. -/
def undefinedSymbols (g : Grammar) : List String :=
  let missing := (g.rules.values.flatten.flatMap Rule.brackets).filter (!g.defines ·)
  (SymbolMap.ofList (missing.map fun token => (token, ()))).keys

/-! ## Adding entries -/

def append (g : Grammar) (symbol : String) (rule : Rule) : Grammar :=
  ⟨g.rules.alter symbol fun present => present.getD [] ++ [rule]⟩

/-- Gives `symbol` an entry and leaves its rules as they are. -/
def declare (g : Grammar) (symbol : String) : Grammar :=
  ⟨g.rules.alter symbol fun present => present.getD []⟩

/-- A call that changes a grammar. It tells whether it was refused, and leaves a grammar even so. -/
abbrev Call := ExceptT Fault (StateM Grammar) Unit

/-- Refuses a symbol that is not in angle brackets. -/
def checkSymbol (symbol : String) : Except Fault Unit :=
  if isBracketed symbol then .ok () else .error (.unbracketedKey symbol)

/-- Adds a rule for a symbol, which has to be in angle brackets. -/
def addRule (symbol : String) (rule : Rule) : Call := do
  checkSymbol symbol
  modify fun g => g.append symbol rule

/-- Declares a symbol, which has to be in angle brackets. -/
def addSymbol (symbol : String) : Call := do
  checkSymbol symbol
  modify fun g => g.declare symbol

end Grammar

/-! ## Grammars in the making -/

/-- A step in the making of a grammar. -/
inductive Entry where
  | rule (symbol : String) (rule : Rule)
  | symbol (symbol : String)
  deriving DecidableEq, Repr

def Grammar.add : Entry → Grammar.Call
  | .rule symbol rule => addRule symbol rule
  | .symbol symbol => addSymbol symbol

/-- A grammar in the making that stops at its first fault and tells it at the end. -/
structure Draft where
  grammar : Grammar := ∅
  fault : Option Fault := none

namespace Draft

def add (d : Draft) (entry : Entry) : Draft :=
  match d.fault with
  | some _ => d
  | none =>
    match Grammar.add entry d.grammar with
    | (.ok (), grammar) => ⟨grammar, none⟩
    | (.error fault, grammar) => ⟨grammar, some fault⟩

def finish (d : Draft) : Except Fault Grammar :=
  match d.fault with
  | some fault => .error fault
  | none => .ok d.grammar

end Draft

/-! ## Arithmetic -/

/-- Sums, products, signs, brackets and decimal numbers over the ten digits: the grammar that serves
when no other is given. -/
def Grammar.arithmetic : Grammar :=
  ⟨.ofList [
    ("<start>", [⟨["<expr>"]⟩]),
    ("<expr>", [
      ⟨["<term>", " + ", "<expr>"]⟩,
      ⟨["<term>", " - ", "<expr>"]⟩,
      ⟨["<term>"]⟩]),
    ("<term>", [
      ⟨["<factor>", " * ", "<term>"]⟩,
      ⟨["<factor>", " / ", "<term>"]⟩,
      ⟨["<factor>"]⟩]),
    ("<factor>", [
      ⟨["+", "<factor>"]⟩,
      ⟨["-", "<factor>"]⟩,
      ⟨["(", "<expr>", ")"]⟩,
      ⟨["<integer>", ".", "<integer>"]⟩,
      ⟨["<integer>"]⟩]),
    ("<integer>", [
      ⟨["<digit>", "<integer>"]⟩,
      ⟨["<digit>"]⟩]),
    ("<digit>", ["0", "1", "2", "3", "4", "5", "6", "7", "8", "9"].map fun digit => ⟨[digit]⟩)]⟩

end GrammarSampler

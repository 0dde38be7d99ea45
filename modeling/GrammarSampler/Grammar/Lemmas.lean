import GrammarSampler.Grammar.Basic
import GrammarSampler.SymbolMap.Lemmas

/-!
# Laws of grammars

What a grammar holds after an entry is added, what the calls that add entries do, and the tokens
that can stand in some derivation from a start.
-/

namespace GrammarSampler

namespace Grammar

theorem symbols_sorted (g : Grammar) : g.symbols.Pairwise (· < ·) := g.rules.keys_sorted

theorem mem_symbols_iff {g : Grammar} {symbol : String} :
    symbol ∈ g.symbols ↔ g.defines symbol = true :=
  SymbolMap.mem_keys_iff

theorem rulesOf_append (g : Grammar) (symbol other : String) (rule : Rule) :
    (g.append symbol rule).rulesOf other =
      if other = symbol then g.rulesOf symbol ++ [rule] else g.rulesOf other := by
  simp only [rulesOf, append, SymbolMap.get?_alter]
  split <;> simp

theorem rulesOf_declare (g : Grammar) (symbol other : String) :
    (g.declare symbol).rulesOf other = g.rulesOf other := by
  simp only [rulesOf, declare, SymbolMap.get?_alter]
  split <;> simp_all

theorem defines_append (g : Grammar) (symbol other : String) (rule : Rule) :
    (g.append symbol rule).defines other = (other == symbol || g.defines other) := by
  simp only [defines, append, SymbolMap.contains, SymbolMap.get?_alter]
  split <;> simp_all

theorem defines_declare (g : Grammar) (symbol other : String) :
    (g.declare symbol).defines other = (other == symbol || g.defines other) := by
  simp only [defines, declare, SymbolMap.contains, SymbolMap.get?_alter]
  split <;> simp_all

/-- A token without an entry has no rules. -/
theorem rulesOf_eq_nil_of_not_defines {g : Grammar} {symbol : String}
    (h : g.defines symbol = false) : g.rulesOf symbol = [] := by
  simp only [defines, SymbolMap.contains, Option.isSome_eq_false_iff,
    Option.isNone_iff_eq_none] at h
  simp [rulesOf, h]

theorem defines_of_rulesOf_ne_nil {g : Grammar} {symbol : String} (h : g.rulesOf symbol ≠ []) :
    g.defines symbol = true := by
  cases hd : g.defines symbol with
  | true => rfl
  | false => exact absurd (rulesOf_eq_nil_of_not_defines hd) h

/-- The undefined symbols are the tokens of rules that are in angle brackets and have no entry. -/
theorem mem_undefinedSymbols_iff {g : Grammar} {token : String} :
    token ∈ g.undefinedSymbols ↔ isBracketed token = true ∧ g.defines token = false ∧
      ∃ symbol, ∃ rule ∈ g.rulesOf symbol, token ∈ rule.tokens := by
  have hrules : ∀ rule, rule ∈ g.rules.values.flatten ↔ ∃ symbol, rule ∈ g.rulesOf symbol := by
    intro rule
    simp only [SymbolMap.values, List.mem_flatten, List.mem_map, rulesOf]
    constructor
    · intro ⟨_, ⟨⟨symbol, rules⟩, hentry, rfl⟩, hrule⟩
      exact ⟨symbol, by rw [SymbolMap.mem_entries_iff.1 hentry]; exact hrule⟩
    · intro ⟨symbol, hrule⟩
      cases hr : g.rules.get? symbol with
      | none => simp [hr] at hrule
      | some rules =>
        rw [hr] at hrule
        exact ⟨rules, ⟨(symbol, rules), SymbolMap.mem_entries_iff.2 hr, rfl⟩, hrule⟩
  simp only [undefinedSymbols, SymbolMap.mem_keys_ofList, List.map_map, Function.comp_def,
    List.map_id', List.mem_filter, List.mem_flatMap, Rule.brackets, hrules, Bool.not_eq_true']
  constructor
  · intro ⟨⟨rule, ⟨symbol, hrule⟩, htoken, hbracketed⟩, hdefines⟩
    exact ⟨hbracketed, hdefines, symbol, rule, hrule, htoken⟩
  · intro ⟨hbracketed, hdefines, symbol, rule, hrule, htoken⟩
    exact ⟨⟨rule, ⟨symbol, hrule⟩, htoken, hbracketed⟩, hdefines⟩

/-! ## Calls -/

theorem checkSymbol_eq_ok {symbol : String} (h : isBracketed symbol = true) :
    checkSymbol symbol = .ok () :=
  if_pos h

theorem checkSymbol_eq_error {symbol : String} (h : isBracketed symbol = false) :
    checkSymbol symbol = .error (.unbracketedKey symbol) := by
  rw [checkSymbol, h]
  rfl

theorem addRule_apply {symbol : String} (h : isBracketed symbol = true) (rule : Rule)
    (g : Grammar) : addRule symbol rule g = (.ok (), g.append symbol rule) := by
  rw [addRule, checkSymbol_eq_ok h]
  rfl

theorem addRule_apply_error {symbol : String} (h : isBracketed symbol = false) (rule : Rule)
    (g : Grammar) : addRule symbol rule g = (.error (.unbracketedKey symbol), g) := by
  rw [addRule, checkSymbol_eq_error h]
  rfl

theorem addSymbol_apply {symbol : String} (h : isBracketed symbol = true) (g : Grammar) :
    addSymbol symbol g = (.ok (), g.declare symbol) := by
  rw [addSymbol, checkSymbol_eq_ok h]
  rfl

theorem addSymbol_apply_error {symbol : String} (h : isBracketed symbol = false) (g : Grammar) :
    addSymbol symbol g = (.error (.unbracketedKey symbol), g) := by
  rw [addSymbol, checkSymbol_eq_error h]
  rfl

/-! ## Symbols that rules lead to -/

section

variable {g : Grammar} {start symbol token : String}

/-- Whether rules lead from `start` to a token, in any number of steps. -/
inductive Reaches (g : Grammar) (start : String) : String → Prop
  | refl : Reaches g start start
  | step {symbol token : String} {rule : Rule} (hsymbol : Reaches g start symbol)
      (hrule : rule ∈ g.rulesOf symbol) (htoken : token ∈ rule.tokens) : Reaches g start token

theorem Reaches.trans (h : g.Reaches start symbol) (h' : g.Reaches symbol token) :
    g.Reaches start token := by
  induction h' with
  | refl => exact h
  | step _ hrule htoken ih => exact ih.step hrule htoken

/-- What rules lead to is no more than it has to be. -/
theorem Reaches.of_closed {p : String → Prop} (hstart : p start)
    (hclosed : ∀ symbol, p symbol → ∀ rule ∈ g.rulesOf symbol, ∀ token ∈ rule.tokens, p token)
    (h : g.Reaches start symbol) : p symbol := by
  induction h with
  | refl => exact hstart
  | step _ hrule htoken ih => exact hclosed _ ih _ hrule _ htoken

end

end Grammar

/-! ## Entries -/

namespace Entry

/-- The symbol that an entry is for. -/
def key : Entry → String
  | .rule named _ => named
  | .symbol named => named

/-- The grammar with an entry more. -/
def into (entry : Entry) (g : Grammar) : Grammar :=
  match entry with
  | .rule named added => g.append named added
  | .symbol named => g.declare named

theorem defines_into (entry : Entry) (g : Grammar) (symbol : String) :
    (entry.into g).defines symbol = (symbol == entry.key || g.defines symbol) := by
  cases entry with
  | rule key rule => exact g.defines_append key symbol rule
  | symbol key => exact g.defines_declare key symbol

end Entry

namespace Draft

theorem finish_eq_ok_iff {d : Draft} {g : Grammar} :
    d.finish = .ok g ↔ d.fault = none ∧ d.grammar = g := by
  rw [finish]
  cases d.fault <;> simp

end Draft

namespace Grammar

variable {entry : Entry}

theorem add_apply (h : isBracketed entry.key = true) (g : Grammar) :
    add entry g = (.ok (), entry.into g) := by
  cases entry with
  | rule symbol rule => exact addRule_apply h rule g
  | symbol symbol => exact addSymbol_apply h g

/-- A call that is refused leaves the grammar as it is. -/
theorem add_apply_error (h : isBracketed entry.key = false) (g : Grammar) :
    add entry g = (.error (.unbracketedKey entry.key), g) := by
  cases entry with
  | rule symbol rule => exact addRule_apply_error h rule g
  | symbol symbol => exact addSymbol_apply_error h g

end Grammar

end GrammarSampler

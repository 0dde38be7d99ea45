import GrammarSampler.Grammar.Lemmas
import Mathlib.Data.List.Basic

/-!
# Grammars from their rules

A grammar may be given as a list of rules, each with its symbol. All that counts is which rules
stand with a symbol, and in what order; a symbol without rules cannot be given in this way.
-/

namespace GrammarSampler.Grammar

variable {g : Grammar} {symbol other : String} {more : List (String × Rule)}

/-- The rules with their symbols, in increasing order of the symbols. -/
def pairs (g : Grammar) : List (String × Rule) :=
  g.rules.entries.flatMap fun e => e.2.map (e.1, ·)

/-- The rules that stand with `symbol`. -/
def rulesWith (symbol : String) (list : List (String × Rule)) : List Rule :=
  (list.filter (·.1 = symbol)).map (·.2)

/-- The grammar to which the rules are added in turn. -/
def ofPairs (list : List (String × Rule)) : Grammar :=
  list.foldl (fun g pair => g.append pair.1 pair.2) ∅

theorem rulesWith_append (list more : List (String × Rule)) :
    rulesWith symbol (list ++ more) = rulesWith symbol list ++ rulesWith symbol more := by
  rw [rulesWith, List.filter_append, List.map_append]
  rfl

theorem rulesWith_cons_self (rule : Rule) :
    rulesWith symbol ((symbol, rule) :: more) = rule :: rulesWith symbol more := by
  simp [rulesWith]

theorem rulesWith_cons_of_ne (h : other ≠ symbol) (rule : Rule) :
    rulesWith symbol ((other, rule) :: more) = rulesWith symbol more := by
  simp [rulesWith, h]

theorem rulesWith_map_self (rules : List Rule) :
    rulesWith symbol (rules.map (symbol, ·)) = rules := by
  induction rules with
  | nil => rfl
  | cons rule rules ih => rw [List.map_cons, rulesWith_cons_self, ih]

theorem rulesWith_map_of_ne (h : other ≠ symbol) (rules : List Rule) :
    rulesWith symbol (rules.map (other, ·)) = [] := by
  induction rules with
  | nil => rfl
  | cons rule rules ih => rw [List.map_cons, rulesWith_cons_of_ne h, ih]

/-! ## Adding rules in turn -/

theorem get?_append (g : Grammar) (symbol other : String) (rule : Rule) :
    (g.append other rule).rules.get? symbol =
      if symbol = other then some (g.rulesOf symbol ++ [rule]) else g.rules.get? symbol := by
  rw [append, SymbolMap.get?_alter]
  split
  · next h =>
      subst h
      rfl
  · rfl

theorem get?_foldl_append (g : Grammar) (symbol : String) (list : List (String × Rule)) :
    (list.foldl (fun g pair => g.append pair.1 pair.2) g).rules.get? symbol =
      if rulesWith symbol list = [] then g.rules.get? symbol
      else some (g.rulesOf symbol ++ rulesWith symbol list) := by
  induction list generalizing g with
  | nil => rfl
  | cons pair more ih =>
      obtain ⟨other, rule⟩ := pair
      rw [List.foldl_cons, ih, get?_append, rulesOf_append]
      by_cases h : other = symbol
      · subst h
        rw [rulesWith_cons_self, if_pos rfl, if_pos rfl, if_neg (List.cons_ne_nil _ _)]
        split
        · next hmore => rw [hmore]
        · rw [List.append_assoc, List.singleton_append]
      · rw [rulesWith_cons_of_ne h, if_neg (Ne.symm h), if_neg (Ne.symm h)]

theorem get?_ofPairs (symbol : String) (list : List (String × Rule)) :
    (ofPairs list).rules.get? symbol =
      if rulesWith symbol list = [] then none else some (rulesWith symbol list) :=
  get?_foldl_append ∅ symbol list

theorem exists_of_mem_entries_ofPairs {list : List (String × Rule)} {entry : String × List Rule}
    (h : entry ∈ (ofPairs list).rules.entries) :
    entry.2 ≠ [] ∧ ∃ pair ∈ list, pair.1 = entry.1 := by
  obtain ⟨symbol, rules⟩ := entry
  rw [SymbolMap.mem_entries_iff, get?_ofPairs] at h
  by_cases hr : rulesWith symbol list = []
  · rw [if_pos hr] at h
    cases h
  · rw [if_neg hr] at h
    cases h
    obtain ⟨rule, hrule⟩ := List.exists_mem_of_ne_nil _ hr
    obtain ⟨pair, hpair, -⟩ := List.mem_map.1 hrule
    obtain ⟨hmem, hsymbol⟩ := List.mem_filter.1 hpair
    exact ⟨hr, pair, hmem, of_decide_eq_true hsymbol⟩

/-- Whether each symbol has the rules that stand with it, in their order, and no other symbol has an
entry. -/
structure Collects (g : Grammar) (list : List (String × Rule)) : Prop where
  rulesOf_eq : ∀ symbol, g.rulesOf symbol = rulesWith symbol list
  defines_iff : ∀ symbol, g.defines symbol = true ↔ symbol ∈ list.map (·.1)

theorem rulesWith_eq_nil_iff {list : List (String × Rule)} :
    rulesWith symbol list = [] ↔ symbol ∉ list.map (·.1) := by
  simp only [rulesWith, List.map_eq_nil_iff, List.filter_eq_nil_iff, decide_eq_true_eq,
    List.mem_map, not_exists, not_and]

theorem collects_iff {list : List (String × Rule)} : g.Collects list ↔ g = ofPairs list := by
  apply Iff.intro
  · intro h
    have hrules : g.rules = (ofPairs list).rules := by
      refine SymbolMap.ext_get? fun symbol => ?_
      have hsame := h.rulesOf_eq symbol
      have hdefines := h.defines_iff symbol
      rw [defines, SymbolMap.contains] at hdefines
      rw [rulesOf] at hsame
      rw [get?_ofPairs]
      cases hr : g.rules.get? symbol with
      | none =>
          rw [hr] at hsame
          exact (if_pos hsame.symm).symm
      | some rules =>
          rw [hr] at hsame hdefines
          rw [if_neg (rulesWith_eq_nil_iff.not_left.2 (hdefines.1 rfl)), ← hsame]
          rfl
    exact congrArg Grammar.mk hrules
  · rintro rfl
    constructor
    · intro symbol
      rw [rulesOf, get?_ofPairs]
      split
      · next hr => rw [hr]; rfl
      · rfl
    · intro symbol
      rw [defines, SymbolMap.contains, get?_ofPairs]
      split
      · next hr => simp [rulesWith_eq_nil_iff.1 hr]
      · next hr => simpa using rulesWith_eq_nil_iff.not_left.1 hr

/-! ## The rules of a grammar -/

theorem rulesWith_flatMap {l : List (String × List Rule)}
    (hsorted : l.Pairwise fun a b => a.1 < b.1) :
    rulesWith symbol (l.flatMap fun e => e.2.map (e.1, ·)) = (l.lookup symbol).getD [] := by
  induction l with
  | nil => rfl
  | cons e l ih =>
      obtain ⟨key, rules⟩ := e
      obtain ⟨hfirst, hmore⟩ := List.pairwise_cons.1 hsorted
      rw [List.flatMap_cons, rulesWith_append, ih hmore, SymbolMap.lookup_cons_ite]
      by_cases h : symbol = key
      · subst h
        rw [SymbolMap.lookup_eq_none_of_lt hfirst, if_pos rfl, rulesWith_map_self]
        exact List.append_nil _
      · rw [if_neg h, rulesWith_map_of_ne (Ne.symm h), List.nil_append]

theorem rulesWith_pairs (g : Grammar) (symbol : String) :
    rulesWith symbol g.pairs = g.rulesOf symbol :=
  rulesWith_flatMap g.rules.sorted

/-- The rules of a grammar give it back if no symbol lacks rules. -/
theorem ofPairs_pairs (h : ∀ entry ∈ g.rules.entries, entry.2 ≠ []) : ofPairs g.pairs = g := by
  have hrules : (ofPairs g.pairs).rules = g.rules := by
    refine SymbolMap.ext_get? fun symbol => ?_
    rw [get?_ofPairs, rulesWith_pairs, rulesOf]
    cases hr : g.rules.get? symbol with
    | none => rfl
    | some rules => exact if_neg (h (symbol, rules) (SymbolMap.mem_entries_iff.2 hr))
  exact congrArg Grammar.mk hrules

theorem mem_pairs {pair : String × Rule} (h : pair ∈ g.pairs) :
    ∃ entry ∈ g.rules.entries, pair.1 = entry.1 ∧ pair.2 ∈ entry.2 := by
  obtain ⟨entry, hentry, hpair⟩ := List.mem_flatMap.1 h
  obtain ⟨rule, hrule, rfl⟩ := List.mem_map.1 hpair
  exact ⟨entry, hentry, rfl, hrule⟩

end GrammarSampler.Grammar

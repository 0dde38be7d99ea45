import GrammarSampler.Grammar.Lemmas
import GrammarSampler.Proofs.Text.Bytes
import Mathlib

/-!
# Grammars as logs

Entries are added to a grammar by one call after the other, and a call that is refused leaves it as
it is. The grammar is then a log: it tells the rules that it took for each symbol, in their order,
and nothing of how entries for different symbols followed each other. A draft that is given the same
entries ends with the same grammar, or with the first fault.
-/

namespace GrammarSampler

/-! ## Entries -/

namespace Entry

variable {symbol : String} {entries others : List Entry}

/-- The rule that an entry adds to `symbol`, if it adds one. -/
def ruleFor? (symbol : String) : Entry → Option Rule
  | .rule named added => if named = symbol then some added else none
  | .symbol _ => none

/-- Whether two rows hold, for each symbol, the same entries in the same order. -/
def Reordered (entries others : List Entry) : Prop :=
  ∀ symbol, entries.filter (·.key = symbol) = others.filter (·.key = symbol)

theorem ruleFor?_of_key_ne {entry : Entry} (h : entry.key ≠ symbol) :
    entry.ruleFor? symbol = none := by
  cases entry with
  | rule => exact if_neg h
  | symbol => rfl

theorem filterMap_ruleFor?_filter_key (symbol : String) (entries : List Entry) :
    (entries.filter (·.key = symbol)).filterMap (ruleFor? symbol) =
      entries.filterMap (ruleFor? symbol) := by
  rw [List.filterMap_filter]
  refine List.filterMap_congr fun entry _ => ?_
  by_cases h : entry.key = symbol
  · rw [if_pos (decide_eq_true h)]
  · rw [if_neg (by simpa using h), ruleFor?_of_key_ne h]

/-- Neighbours that are for different symbols may be exchanged. -/
theorem reordered_swap {first second : Entry} (h : first.key ≠ second.key)
    (before after : List Entry) :
    Reordered (before ++ first :: second :: after) (before ++ second :: first :: after) := by
  intro symbol
  simp only [List.filter_append, List.filter_cons]
  by_cases hfirst : first.key = symbol
  · have hsecond : second.key ≠ symbol := fun heq => h (hfirst.trans heq.symm)
    simp [hfirst, hsecond]
  · simp [hfirst]

theorem Reordered.filter (h : Reordered entries others) (p : Entry → Bool) :
    Reordered (entries.filter p) (others.filter p) := by
  intro symbol
  rw [List.filter_comm, h symbol, List.filter_comm]

theorem Reordered.filterMap_ruleFor?_eq (h : Reordered entries others) (symbol : String) :
    entries.filterMap (ruleFor? symbol) = others.filterMap (ruleFor? symbol) := by
  rw [← filterMap_ruleFor?_filter_key, h symbol, filterMap_ruleFor?_filter_key]

theorem Reordered.exists_key_eq_iff (h : Reordered entries others) (symbol : String) :
    (∃ entry ∈ entries, entry.key = symbol) ↔ ∃ entry ∈ others, entry.key = symbol := by
  have hmem : ∀ row : List Entry, (∃ entry ∈ row, entry.key = symbol) ↔
      ∃ entry, entry ∈ row.filter (·.key = symbol) := fun row => by
    simp only [List.mem_filter, decide_eq_true_eq]
  rw [hmem, hmem, h symbol]

theorem rulesOf_into (entry : Entry) (g : Grammar) (symbol : String) :
    (entry.into g).rulesOf symbol = g.rulesOf symbol ++ (entry.ruleFor? symbol).toList := by
  cases entry with
  | symbol named => exact (g.rulesOf_declare named symbol).trans (List.append_nil _).symm
  | rule named added =>
      rw [into, Grammar.rulesOf_append, ruleFor?]
      by_cases heq : symbol = named
      · rw [if_pos heq, if_pos heq.symm, heq]
        rfl
      · rw [if_neg heq, if_neg (Ne.symm heq)]
        exact (List.append_nil _).symm

end Entry

namespace Grammar

variable {g next : Grammar}

theorem symbols_sorted_bytes (g : Grammar) :
    g.symbols.Pairwise fun a b => Text.bytes a < Text.bytes b :=
  g.symbols_sorted.imp Text.bytes_lt_bytes_of_lt

/-- A grammar is told by which symbols it defines and by their rules. -/
theorem ext_rulesOf (hdefines : ∀ symbol, g.defines symbol = true ↔ next.defines symbol = true)
    (hrules : ∀ symbol, g.rulesOf symbol = next.rulesOf symbol) : g = next := by
  have hsame : g.rules = next.rules := by
    refine SymbolMap.ext_get? fun symbol => ?_
    have hdefined := hdefines symbol
    have hlist := hrules symbol
    simp only [defines, SymbolMap.contains] at hdefined
    simp only [rulesOf] at hlist
    cases hg : g.rules.get? symbol <;> cases hnext : next.rules.get? symbol <;>
      simp_all
  exact congrArg Grammar.mk hsame

end Grammar

/-! ## Logs -/

/-- A grammar in the making that goes on after a fault, and what the calls told that made it. -/
structure Log where
  grammar : Grammar := ∅
  /-- The entries in turn, each with what the call told that was to add it. -/
  calls : List (Entry × Except Fault Unit) := []

namespace Log

variable {log other : Log} {entries others : List Entry} {entry : Entry}

def add (log : Log) (entry : Entry) : Log :=
  let (told, grammar) := Grammar.add entry log.grammar
  ⟨grammar, log.calls ++ [(entry, told)]⟩

/-- The log of adding entries to the empty grammar. -/
def ofEntries (entries : List Entry) : Log := entries.foldl add {}

/-- The entries that were not refused. -/
def taken (log : Log) : List Entry := (log.calls.filter (·.2.isOk)).map (·.1)

def firstFault? (log : Log) : Option Fault :=
  log.calls.findSome? fun
    | (_, .error fault) => some fault
    | (_, .ok ()) => none

theorem ofEntries_concat (entries : List Entry) (entry : Entry) :
    ofEntries (entries ++ [entry]) = (ofEntries entries).add entry :=
  List.foldl_concat _ _ _ _

theorem calls_add (log : Log) (entry : Entry) :
    (log.add entry).calls = log.calls ++ [(entry, (Grammar.add entry log.grammar).1)] := rfl

theorem add_eq (h : isBracketed entry.key = true) (log : Log) :
    log.add entry = ⟨entry.into log.grammar, log.calls ++ [(entry, .ok ())]⟩ := by
  rw [add, Grammar.add_apply h]

theorem add_eq_error (h : isBracketed entry.key = false) (log : Log) : log.add entry =
    ⟨log.grammar, log.calls ++ [(entry, .error (.unbracketedKey entry.key))]⟩ := by
  rw [add, Grammar.add_apply_error h]

@[simp]
theorem taken_concat_ok (log : Log) (g : Grammar) (entry : Entry) :
    (⟨g, log.calls ++ [(entry, .ok ())]⟩ : Log).taken = log.taken ++ [entry] := by
  simp [taken, Except.isOk, Except.toBool]

@[simp]
theorem taken_concat_error (log : Log) (g : Grammar) (entry : Entry) (fault : Fault) :
    (⟨g, log.calls ++ [(entry, .error fault)]⟩ : Log).taken = log.taken := by
  simp [taken, Except.isOk, Except.toBool]

@[simp]
theorem firstFault?_concat_ok (log : Log) (g : Grammar) (entry : Entry) :
    (⟨g, log.calls ++ [(entry, .ok ())]⟩ : Log).firstFault? = log.firstFault? := by
  simp [firstFault?, List.findSome?_append]

@[simp]
theorem firstFault?_concat_error (log : Log) (g : Grammar) (entry : Entry) (fault : Fault) :
    (⟨g, log.calls ++ [(entry, .error fault)]⟩ : Log).firstFault? =
      log.firstFault?.or (some fault) := by
  simp [firstFault?, List.findSome?_append]

/-- Whether a log holds what its calls say: the entries for symbols without angle brackets were
refused for that, and the grammar has the others. -/
structure Faithful (log : Log) : Prop where
  refused_iff : ∀ call ∈ log.calls, ∀ fault, call.2 = .error fault ↔
    isBracketed call.1.key = false ∧ fault = .unbracketedKey call.1.key
  rulesOf_eq : ∀ symbol,
    log.grammar.rulesOf symbol = log.taken.filterMap (Entry.ruleFor? symbol)
  defines_iff : ∀ symbol,
    log.grammar.defines symbol = true ↔ ∃ entry ∈ log.taken, entry.key = symbol
  symbols_sorted : log.grammar.symbols.Pairwise fun a b => Text.bytes a < Text.bytes b

theorem faithful_empty : ({} : Log).Faithful where
  refused_iff := fun _ hcall => absurd hcall List.not_mem_nil
  rulesOf_eq := fun _ => rfl
  defines_iff := fun symbol => by
    simp only [taken, List.filter_nil, List.map_nil, List.not_mem_nil, false_and, exists_false,
      iff_false]
    exact Bool.false_ne_true
  symbols_sorted := .nil

theorem Faithful.refused_iff_concat (h : log.Faithful) {told : Except Fault Unit}
    (htold : ∀ fault, told = .error fault ↔
      isBracketed entry.key = false ∧ fault = .unbracketedKey entry.key) :
    ∀ call ∈ log.calls ++ [(entry, told)], ∀ fault, call.2 = .error fault ↔
      isBracketed call.1.key = false ∧ fault = .unbracketedKey call.1.key := by
  intro call hcall
  rcases List.mem_append.1 hcall with hcall | hcall
  · exact h.refused_iff call hcall
  · obtain rfl := List.mem_singleton.1 hcall
    exact htold

theorem Faithful.add (h : log.Faithful) (entry : Entry) : (log.add entry).Faithful := by
  cases hentry : isBracketed entry.key with
  | true =>
      rw [add_eq hentry]
      refine ⟨h.refused_iff_concat (by simp [hentry]), fun symbol => ?_, fun symbol => ?_,
        (entry.into log.grammar).symbols_sorted_bytes⟩
      · rw [entry.rulesOf_into, h.rulesOf_eq, taken_concat_ok, List.filterMap_append]
        cases hrule : entry.ruleFor? symbol <;> simp [hrule]
      · rw [entry.defines_into, Bool.or_eq_true, h.defines_iff, taken_concat_ok]
        simp only [beq_iff_eq, List.mem_append, List.mem_singleton, or_and_right, exists_or,
          exists_eq_left]
        rw [or_comm, eq_comm]
  | false =>
      rw [add_eq_error hentry]
      refine ⟨h.refused_iff_concat (by simp [hentry, eq_comm]), ?_, ?_, h.symbols_sorted⟩
      · rw [taken_concat_error]
        exact h.rulesOf_eq
      · rw [taken_concat_error]
        exact h.defines_iff

theorem faithful_ofEntries (entries : List Entry) : (ofEntries entries).Faithful := by
  induction entries using List.reverseRecOn with
  | nil => exact faithful_empty
  | append_singleton entries entry ih =>
      rw [ofEntries_concat]
      exact ih.add entry

/-- Every call is kept, in turn. -/
theorem map_fst_calls_ofEntries (entries : List Entry) :
    (ofEntries entries).calls.map (·.1) = entries := by
  induction entries using List.reverseRecOn with
  | nil => rfl
  | append_singleton entries entry ih =>
      rw [ofEntries_concat]
      rw [calls_add, List.map_append, ih]
      rfl

theorem taken_ofEntries (entries : List Entry) :
    (ofEntries entries).taken = entries.filter (isBracketed ·.key) := by
  induction entries using List.reverseRecOn with
  | nil => rfl
  | append_singleton entries entry ih =>
      rw [ofEntries_concat, List.filter_append, ← ih]
      cases hentry : isBracketed entry.key with
      | true => simp [add_eq hentry, hentry]
      | false => simp [add_eq_error hentry, hentry]

/-- Faithful logs that took the same entries for each symbol have the same grammar. -/
theorem Faithful.grammar_eq (h : log.Faithful) (hother : other.Faithful)
    (htaken : Entry.Reordered log.taken other.taken) : log.grammar = other.grammar := by
  refine Grammar.ext_rulesOf (fun symbol => ?_) fun symbol => ?_
  · rw [h.defines_iff, hother.defines_iff, htaken.exists_key_eq_iff]
  · rw [h.rulesOf_eq, hother.rulesOf_eq, htaken.filterMap_ruleFor?_eq]

theorem grammar_eq_of_reordered (h : Entry.Reordered entries others) :
    (ofEntries entries).grammar = (ofEntries others).grammar := by
  refine (faithful_ofEntries entries).grammar_eq (faithful_ofEntries others) ?_
  rw [taken_ofEntries, taken_ofEntries]
  exact h.filter _

/-- The rules of a symbol are only added to. -/
theorem rulesOf_prefix (entries more : List Entry) (symbol : String) :
    (ofEntries entries).grammar.rulesOf symbol <+:
      (ofEntries (entries ++ more)).grammar.rulesOf symbol := by
  rw [(faithful_ofEntries _).rulesOf_eq, (faithful_ofEntries _).rulesOf_eq, taken_ofEntries,
    taken_ofEntries, List.filter_append, List.filterMap_append]
  exact List.prefix_append _ _

end Log

/-! ## Drafts -/

namespace Draft

variable {d : Draft} {log : Log}

/-- Whether a draft has the first fault of a log, or if there is none its grammar. -/
structure Follows (d : Draft) (log : Log) : Prop where
  fault_eq : d.fault = log.firstFault?
  grammar_eq : d.fault = none → d.grammar = log.grammar

theorem Follows.add (h : d.Follows log) (entry : Entry) :
    (d.add entry).Follows (log.add entry) := by
  obtain ⟨grammar, fault⟩ := d
  obtain ⟨hfault, hgrammar⟩ := h
  cases fault with
  | some fault =>
      -- a draft that has a fault stays as it is, and the first fault of the log stays the first
      have hlog : log.firstFault? = some fault := hfault.symm
      refine ⟨?_, fun hnone => absurd hnone (Option.some_ne_none fault)⟩
      cases hentry : isBracketed entry.key with
      | true => rw [Log.add_eq hentry, Log.firstFault?_concat_ok, hlog, Draft.add]
      | false =>
          rw [Log.add_eq_error hentry, Log.firstFault?_concat_error, hlog, Draft.add,
            Option.some_or]
  | none =>
      have hlog : log.firstFault? = none := hfault.symm
      obtain rfl : grammar = log.grammar := hgrammar rfl
      cases hentry : isBracketed entry.key with
      | true =>
          rw [Log.add_eq hentry]
          simp only [Draft.add, Grammar.add_apply hentry]
          exact ⟨by rw [Log.firstFault?_concat_ok, hlog], fun _ => rfl⟩
      | false =>
          rw [Log.add_eq_error hentry]
          simp only [Draft.add, Grammar.add_apply_error hentry]
          exact ⟨by rw [Log.firstFault?_concat_error, hlog, Option.none_or], fun _ => rfl⟩

theorem follows_ofEntries (entries : List Entry) :
    (entries.foldl Draft.add {}).Follows (Log.ofEntries entries) := by
  induction entries using List.reverseRecOn with
  | nil => exact ⟨rfl, fun _ => rfl⟩
  | append_singleton entries entry ih =>
      rw [Log.ofEntries_concat, List.foldl_concat]
      exact ih.add entry

theorem Follows.finish_eq (h : d.Follows log) :
    d.finish = match log.firstFault? with
      | some fault => .error fault
      | none => .ok log.grammar := by
  rw [finish, ← h.fault_eq]
  cases hfault : d.fault with
  | some fault => rfl
  | none => rw [h.grammar_eq hfault]

end Draft

/-! ## Histories -/

namespace Log

/-- What becomes of entries that are added in turn: a call that is refused leaves the grammar as it
is, and the grammar has what the others say. An index goes on to name the same rule, entries for
different symbols may change places, and a draft ends with the grammar or with the first fault. -/
theorem entries_logged_faithfully (entries : List Entry) :
    (ofEntries entries).calls.map (·.1) = entries ∧
    (∀ entry told next, Grammar.add entry (ofEntries entries).grammar = (told, next) →
      ofEntries (entries ++ [entry]) = ⟨next, (ofEntries entries).calls ++ [(entry, told)]⟩ ∧
      ∀ fault, told = .error fault → next = (ofEntries entries).grammar) ∧
    (ofEntries entries).Faithful ∧
    (∀ more symbol (index : Nat) rule,
      ((ofEntries entries).grammar.rulesOf symbol)[index]? = some rule →
        ((ofEntries (entries ++ more)).grammar.rulesOf symbol)[index]? = some rule) ∧
    (∀ others, Entry.Reordered entries others →
      (ofEntries others).grammar = (ofEntries entries).grammar) ∧
    (entries.foldl Draft.add {}).finish = match (ofEntries entries).firstFault? with
      | some fault => .error fault
      | none => .ok (ofEntries entries).grammar := by
  refine ⟨map_fst_calls_ofEntries entries, fun entry told next hadd => ⟨?_, fun fault htold => ?_⟩,
    faithful_ofEntries entries, fun more symbol index rule hrule => ?_,
    fun others hothers => (grammar_eq_of_reordered hothers).symm,
    (Draft.follows_ofEntries entries).finish_eq⟩
  · rw [ofEntries_concat, add, hadd]
  · subst htold
    cases hentry : isBracketed entry.key with
    | true =>
        rw [Grammar.add_apply hentry] at hadd
        cases hadd
    | false =>
        rw [Grammar.add_apply_error hentry] at hadd
        exact (congrArg Prod.snd hadd).symm
  · obtain ⟨later, hlater⟩ := rulesOf_prefix entries more symbol
    rw [← hlater, List.getElem?_append_left (List.getElem?_eq_some_iff.1 hrule).1]
    exact hrule

/-- Two entries are refused, and a symbol is declared that has a rule. -/
def mixed : List Entry :=
  [.rule "<s>" ⟨["a"]⟩, .symbol "<t>", .rule "s" ⟨["b"]⟩, .symbol "t>", .symbol "<s>",
    .rule "<s>" ⟨["<t>"]⟩]

/-- The same entries, of which the symbol without rules is declared first. -/
def mixedOtherwise : List Entry :=
  .symbol "<t>" :: .rule "<s>" ⟨["a"]⟩ :: mixed.drop 2

theorem entries_logged_faithfully_mixed :
    (∃ left, Grammar.add (.symbol ">") (ofEntries mixed).grammar =
        (.error (.unbracketedKey ">"), left) ∧
      left = (ofEntries mixed).grammar ∧ (ofEntries (mixed ++ [.symbol ">"])).grammar = left) ∧
    (ofEntries mixed).grammar.rulesOf "<s>" = [⟨["a"]⟩, ⟨["<t>"]⟩] ∧
      ((ofEntries (mixed ++ [.rule "<s>" ⟨[]⟩])).grammar.rulesOf "<s>")[1]? = some ⟨["<t>"]⟩ ∧
    Entry.Reordered mixed mixedOtherwise ∧
      (ofEntries mixedOtherwise).grammar = (ofEntries mixed).grammar ∧
    (mixed.foldl Draft.add {}).finish = .error (.unbracketedKey "s") := by
  obtain ⟨-, hcall, hfaithful, hindex, hreordered, hfinish⟩ := entries_logged_faithfully mixed
  have hadd : (Grammar.add (.symbol ">") (ofEntries mixed).grammar).1 =
      .error (.unbracketedKey ">") := by
    decide +kernel
  obtain ⟨hlog, hleft⟩ := hcall (.symbol ">") _ _ rfl
  have hrules : (ofEntries mixed).grammar.rulesOf "<s>" = [⟨["a"]⟩, ⟨["<t>"]⟩] := by
    rw [hfaithful.rulesOf_eq, taken_ofEntries]
    decide +kernel
  have hothers : Entry.Reordered mixed mixedOtherwise :=
    Entry.reordered_swap (by decide) [] (mixed.drop 2)
  have hfirst : (ofEntries mixed).firstFault? = some (.unbracketedKey "s") := by decide +kernel
  refine ⟨⟨_, Prod.ext hadd rfl, hleft _ hadd, by rw [hlog]⟩, hrules, ?_, hothers,
    hreordered _ hothers, ?_⟩
  · exact hindex _ "<s>" 1 _ (by rw [hrules]; rfl)
  · rw [hfinish, hfirst]

end Log

end GrammarSampler

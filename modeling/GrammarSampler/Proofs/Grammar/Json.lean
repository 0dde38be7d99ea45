import GrammarSampler.Grammar.Json
import GrammarSampler.Proofs.Json.RoundTrip
import GrammarSampler.Proofs.Listing.RoundTrip
import GrammarSampler.Proofs.Text.Bytes

/-!
# Grammars that are read back from JSON

A grammar is read back from its JSON text unless a key of it is not in angle brackets, and then its
least such key is told. However grammars are made, their keys are in angle brackets.
-/

namespace GrammarSampler

variable {g next : Grammar} {symbol : String}

/-! ## Writing and reading -/

theorem mapM_map_of_read_write {α β : Type} {write : α → β} {read : β → Option α}
    (h : ∀ a, read (write a) = some a) (l : List α) : (l.map write).mapM read = some l := by
  have hread : read ∘ write = fun a => pure (id a) := funext h
  rw [List.mapM_map, hread, List.mapM_pure, List.map_id]
  rfl

theorem Json.members?_record (members : List (String × Json)) :
    (Json.record members).members? = some members := by
  refine mapM_map_of_read_write ?_ members
  exact fun _ => rfl

theorem Rule.ofJson?_toJson (rule : Rule) : Rule.ofJson? rule.toJson = some rule := by
  have htokens : (rule.tokens.map Json.text).mapM Json.text? = some rule.tokens := by
    refine mapM_map_of_read_write ?_ rule.tokens
    exact fun _ => rfl
  simp [Rule.ofJson?, Rule.toJson, Json.items?, htokens]

namespace Grammar

theorem rulesOfJson?_toJson (rules : List Rule) :
    rulesOfJson? (.array (rules.map Rule.toJson)) = some rules :=
  mapM_map_of_read_write Rule.ofJson?_toJson rules

theorem ofJson?_toJson (g : Grammar) : ofJson? g.toJson = some g := by
  rw [ofJson?, toJson, Json.members?_record, Option.bind_eq_bind, Option.bind_some]
  rw [mapM_map_of_read_write ?_ g.rules.entries]
  · rw [Option.bind_eq_bind, Option.bind_some, SymbolMap.ofList_entries]
    rfl
  · exact fun e => by simp [rulesOfJson?_toJson]

/-- Without a look at the keys, every grammar is read back. -/
theorem ofLooseJsonText_jsonText (g : Grammar) : ofLooseJsonText g.jsonText = .ok g := by
  rw [ofLooseJsonText, jsonText, Json.parse?_pretty, Option.bind_some, ofJson?_toJson]

/-! ## Keys -/

/-- Whether all keys of a grammar are in angle brackets. -/
def KeysBracketed (g : Grammar) : Prop := ∀ key ∈ g.symbols, isBracketed key = true

/-- The keys are looked at in turn, and the first that is not in angle brackets is told. -/
theorem forM_checkSymbol (symbols : List String) : symbols.forM checkSymbol =
    match symbols.find? (!isBracketed ·) with
    | some symbol => .error (.unbracketedKey symbol)
    | none => .ok () := by
  induction symbols with
  | nil => rfl
  | cons symbol more ih =>
      rw [List.forM_eq_forM, List.forM_cons, List.find?_cons]
      cases hsymbol : isBracketed symbol with
      | true =>
          rw [checkSymbol_eq_ok hsymbol]
          exact ih
      | false =>
          rw [checkSymbol_eq_error hsymbol]
          rfl

theorem ofJsonText_jsonText_of_keysBracketed (h : g.KeysBracketed) :
    ofJsonText g.jsonText = .ok g := by
  have hfind : g.symbols.find? (!isBracketed ·) = none := by
    rw [List.find?_eq_none]
    intro key hkey
    simp [h key hkey]
  simp only [ofJsonText, ofLooseJsonText_jsonText, forM_checkSymbol, hfind]
  rfl

theorem exists_least_of_not_keysBracketed (h : ¬ g.KeysBracketed) :
    ∃ key ∈ g.symbols, isBracketed key = false ∧
      (∀ other ∈ g.symbols, Text.bytes other < Text.bytes key → isBracketed other = true) ∧
      g.symbols.find? (!isBracketed ·) = some key := by
  cases hfind : g.symbols.find? (!isBracketed ·) with
  | none =>
      rw [List.find?_eq_none] at hfind
      exact absurd (fun key hkey => by simpa using hfind key hkey) h
  | some key =>
      obtain ⟨hkey, before, after, hsymbols, hbefore⟩ := List.find?_eq_some_iff_append.1 hfind
      have hsorted := g.symbols_sorted
      rw [hsymbols, List.pairwise_append, List.pairwise_cons] at hsorted
      refine ⟨key, by simp [hsymbols], by simpa using hkey, fun other hother hbytes => ?_, rfl⟩
      have hlt := Text.bytes_lt_bytes_iff.1 hbytes
      rw [hsymbols, List.mem_append, List.mem_cons] at hother
      rcases hother with hother | rfl | hother
      · simpa using hbefore other hother
      · exact absurd hlt (String.lt_irrefl other)
      · exact absurd (String.lt_trans hlt (hsorted.2.1.1 other hother)) (String.lt_irrefl other)

theorem keysBracketed_of_ofJsonText {source : String} (h : ofJsonText source = .ok g) :
    g.KeysBracketed := by
  unfold ofJsonText at h
  split at h
  · cases h
  · next read _ =>
      cases hfind : read.symbols.find? (!isBracketed ·) with
      | some symbol => simp [forM_checkSymbol, hfind, Except.map] at h
      | none =>
          obtain rfl : read = g := by simpa [forM_checkSymbol, hfind, Except.map] using h
          rw [List.find?_eq_none] at hfind
          exact fun key hkey => by simpa using hfind key hkey

theorem keysBracketed_of_ofListing {source : String} (h : ofListing source = .ok g) :
    g.KeysBracketed := by
  intro key hkey
  obtain ⟨entry, hentry, rfl⟩ := List.mem_map.1 hkey
  obtain ⟨⟨name, -, hplain, -, hname⟩, -⟩ := isKey_of_ofListing h entry hentry
  exact isBracketed_of_isPlainlyBracketed (isPlainlyBracketed_iff.2 ⟨name, hplain, hname⟩)

/-- A call leaves keys in angle brackets, also where it is refused. -/
theorem KeysBracketed.add (hg : g.KeysBracketed) (entry : Entry) :
    (add entry g).2.KeysBracketed := by
  cases hentry : isBracketed entry.key with
  | false =>
      rw [add_apply_error hentry]
      exact hg
  | true =>
      rw [add_apply hentry]
      intro key hkey
      rw [mem_symbols_iff, Entry.defines_into, Bool.or_eq_true, beq_iff_eq] at hkey
      rcases hkey with rfl | hkey
      · exact hentry
      · exact hg key (mem_symbols_iff.2 hkey)

theorem KeysBracketed.addDraft {d : Draft} (hd : d.grammar.KeysBracketed) (entry : Entry) :
    (d.add entry).grammar.KeysBracketed := by
  have hadd := hd.add entry
  rw [Draft.add]
  split
  · exact hd
  · split <;> rwa [‹Grammar.add entry d.grammar = _›] at hadd

theorem KeysBracketed.foldl_add {d : Draft} (hd : d.grammar.KeysBracketed)
    (entries : List Entry) : (entries.foldl Draft.add d).grammar.KeysBracketed := by
  induction entries generalizing d with
  | nil => exact hd
  | cons entry more ih => exact ih (hd.addDraft entry)

/-! ## Making grammars -/

/-- The grammars that are made from nothing, by reading or in a draft, and then by calls that add
entries or are refused. -/
inductive Made : Grammar → Prop
  | empty : Made ∅
  | listing {source : String} {g : Grammar} (h : ofListing source = .ok g) : Made g
  | json {source : String} {g : Grammar} (h : ofJsonText source = .ok g) : Made g
  | draft {entries : List Entry} {g : Grammar} (h : (entries.foldl Draft.add {}).finish = .ok g) :
      Made g
  | call {g : Grammar} (hg : Made g) (entry : Entry) : Made (add entry g).2

theorem Made.keysBracketed (h : g.Made) : g.KeysBracketed := by
  have hempty : KeysBracketed ∅ := fun _ hkey => absurd hkey List.not_mem_nil
  induction h with
  | empty => exact hempty
  | listing h => exact keysBracketed_of_ofListing h
  | json h => exact keysBracketed_of_ofJsonText h
  | draft h =>
      obtain ⟨-, rfl⟩ := Draft.finish_eq_ok_iff.1 h
      exact hempty.foldl_add _
  | call hg entry ih => exact ih.add entry

/-- A grammar whose keys are in angle brackets is read back from its JSON text. Of any other the
least key is told that is not, where keys compare by their bytes. All grammars that are made from
nothing, by reading or in a draft, and then by calls that add entries, are read back. -/
theorem ofJsonText_jsonText :
    (∀ g : Grammar, (∀ key ∈ g.symbols, isBracketed key = true) →
      ofJsonText g.jsonText = .ok g) ∧
    (∀ g : Grammar, (¬ ∀ key ∈ g.symbols, isBracketed key = true) →
      ∃ key ∈ g.symbols, isBracketed key = false ∧
        (∀ other ∈ g.symbols, Text.bytes other < Text.bytes key → isBracketed other = true) ∧
        ofJsonText g.jsonText =
          .error (.invalidGrammar ("rule key `" ++ key ++ "` is not a <non-terminal>"))) ∧
    ∀ g : Grammar, g.Made → (∀ key ∈ g.symbols, isBracketed key = true) ∧
      ofJsonText g.jsonText = .ok g := by
  refine ⟨fun g => ofJsonText_jsonText_of_keysBracketed, fun g h => ?_, fun g h => ?_⟩
  · obtain ⟨key, hkey, hbare, hleast, hfind⟩ := exists_least_of_not_keysBracketed h
    refine ⟨key, hkey, hbare, hleast, ?_⟩
    simp only [ofJsonText, ofLooseJsonText_jsonText, forM_checkSymbol, hfind, Fault.unbracketedKey]
    rfl
  · exact ⟨h.keysBracketed, ofJsonText_jsonText_of_keysBracketed h.keysBracketed⟩

/-- A symbol without rules, an empty rule, and a key and tokens that need escapes. -/
def escaped : Grammar :=
  ⟨⟨[("<\x00\x22\\>>", [⟨[]⟩, ⟨["", "\x22\\\n\x1f"]⟩]), ("<b>", [])], by decide⟩⟩

theorem made_escaped : escaped.Made := by
  have hfinish : ([.rule "<\x00\x22\\>>" ⟨[]⟩, .rule "<\x00\x22\\>>" ⟨["", "\x22\\\n\x1f"]⟩,
      .symbol "<b>"].foldl Draft.add {}).finish = .ok escaped := by
    decide +kernel
  exact .draft hfinish

/-- The same with two keys that are not in angle brackets. -/
def bareKeyed : Grammar := (escaped.declare "b").declare "a"

theorem ofJsonText_jsonText_escaped :
    ofJsonText escaped.jsonText = .ok escaped ∧
      ofJsonText bareKeyed.jsonText =
        .error (.invalidGrammar "rule key `a` is not a <non-terminal>") := by
  obtain ⟨-, hbare, hmade⟩ := ofJsonText_jsonText
  refine ⟨(hmade escaped made_escaped).2, ?_⟩
  obtain ⟨key, hkey, hfalse, hleast, hread⟩ := hbare bareKeyed (by decide +kernel)
  have hkeys : ∀ key ∈ bareKeyed.symbols, isBracketed key = false →
      key = "a" ∨ Text.bytes "a" < Text.bytes key := by
    decide +kernel
  rcases hkeys key hkey hfalse with rfl | hlt
  · exact hread
  · exact absurd (hleast "a" (by decide +kernel) hlt) (by decide)

end Grammar

end GrammarSampler

import GrammarSampler.Proofs.Listing.Blocks
import GrammarSampler.Proofs.Listing.Tokens

/-!
# Listings that are read back

A grammar is read back from its listing if every symbol is a key on one line and has rules, and if
no token in angle brackets breaks its line. All that is ever read from a listing has such symbols.
-/

namespace GrammarSampler

/-- Whether a symbol can stand before a rule: a name in angle brackets, on one line. -/
def IsKey (symbol : String) : Prop :=
  ∃ name, name ≠ [] ∧ '>' ∉ name ∧ '\n' ∉ name ∧ symbol.toList = '<' :: name ++ ['>']

/-- Whether no token of a rule that closes at its only `>` breaks the line. -/
def Rule.OnOneLine (rule : Rule) : Prop :=
  ∀ token ∈ rule.tokens, ∀ name, '>' ∉ name → token.toList = '<' :: name ++ ['>'] →
    '\n' ∉ token.toList

theorem Rule.onOneLine_iff {rule : Rule} : rule.OnOneLine ↔
    ∀ token ∈ rule.tokens, isPlainlyBracketed token = true → '\n' ∉ token.toList := by
  refine forall₂_congr fun token _ => ?_
  rw [isPlainlyBracketed_iff]
  simp only [forall_exists_index, and_imp]

namespace Listing

open Text

variable {symbol : String} {rule : Rule}

theorem IsRule.isKey {body text : List Char} (h : IsRule symbol.toList body text)
    (hbreak : '\n' ∉ text) : IsKey symbol := by
  generalize hkey : symbol.toList = key at h
  cases h with
  | @intro name before after _ hname hplain hbefore hafter =>
      refine ⟨name, hname, hplain, fun hmem => hbreak ?_, hkey⟩
      exact List.mem_cons_of_mem _ (List.mem_append_left _ hmem)

/-! ## Written lines -/

/-- What is written for a rule, up to the end of its line. -/
def line (symbol : String) (rule : Rule) : List Char :=
  symbol.toList ++ [' ', ':', ':', '=', ' '] ++ writeRule rule

/-- A key, the sign and anything in square brackets make a rule. -/
theorem isRule_of_isKey (h : IsKey symbol) (body : List Char) :
    IsRule symbol.toList body
      (symbol.toList ++ [' ', ':', ':', '=', ' '] ++ ('[' :: body ++ [']'])) := by
  obtain ⟨name, hname, hplain, -, hsymbol⟩ := h
  have hblank : ∀ c ∈ [' '], isBlank c = true := List.forall_mem_singleton.2 rfl
  have hrule := @IsRule.intro name [' '] [' '] body hname hplain hblank hblank
  rw [hsymbol]
  simpa using hrule

theorem isRule_line (h : IsKey symbol) (rule : Rule) :
    IsRule symbol.toList (writeBody rule.tokens) (line symbol rule) :=
  isRule_of_isKey h _

theorem read_line (h : IsKey symbol) (rule : Rule) (n : Nat) :
    Block.read ⟨n, line symbol rule⟩ = .ok (symbol, rule) :=
  Block.read_eq_ok_iff.2 ⟨_, isRule_line h rule, tokens_writeBody rule.tokens⟩

theorem line_eq (h : IsKey symbol) (rule : Rule) :
    ∃ inner, line symbol rule = '<' :: inner ++ [']'] := by
  obtain ⟨name, -, -, -, hsymbol⟩ := h
  rw [line, hsymbol, writeRule]
  exact ⟨name ++ '>' :: ' ' :: ':' :: ':' :: '=' :: ' ' :: '[' :: writeBody rule.tokens, by simp⟩

/-- A written line is a block by itself. -/
theorem layout_line (h : IsKey symbol) (rule : Rule) (n : Nat) (more : List (List Char)) :
    layout none n (line symbol rule :: more) =
      ⟨⟨n, line symbol rule⟩ :: (layout none (n + 1) more).closed,
        (layout none (n + 1) more).unclosed⟩ := by
  obtain ⟨inner, hline⟩ := line_eq h rule
  have htrim : trim (line symbol rule) = line symbol rule := by
    rw [hline]
    exact trim_eq_self (by decide) (by decide) inner
  have hskip : skips none (line symbol rule) = false := by
    rw [skips, htrim, hline]
    rfl
  have hclosed : (Block.resume none n (trim (line symbol rule))).isClosed = true := by
    rw [htrim, hline, Block.isClosed, Block.resume, List.getLast?_concat, beq_self_eq_true]
  rw [layout_close hskip hclosed, htrim]
  rfl

theorem layout_lines {pairs : List (String × Rule)} (h : ∀ pair ∈ pairs, IsKey pair.1) (n : Nat) :
    (layout none n (pairs.map (fun pair => line pair.1 pair.2) ++ [[]])).unclosed = none ∧
      (layout none n (pairs.map (fun pair => line pair.1 pair.2) ++ [[]])).closed.map Block.read =
        pairs.map .ok := by
  induction pairs generalizing n with
  | nil => exact ⟨rfl, rfl⟩
  | cons pair more ih =>
      obtain ⟨hkey, hmore⟩ := List.forall_mem_cons.1 h
      obtain ⟨hunclosed, hclosed⟩ := ih hmore (n + 1)
      rw [List.map_cons, List.cons_append, layout_line hkey]
      refine ⟨hunclosed, ?_⟩
      rw [List.map_cons, List.map_cons, read_line hkey, hclosed]

/-! ## Line breaks -/

theorem newline_not_mem_escape (c : Char) : '\n' ∉ escape c := by
  unfold escape
  split_ifs with hbackslash hquote hnewline hreturn htab
  · decide
  · decide
  · decide
  · decide
  · decide
  · simpa using Ne.symm hnewline

theorem newline_not_mem_writeToken {token : String}
    (h : isPlainlyBracketed token = true → '\n' ∉ token.toList) : '\n' ∉ writeToken token := by
  unfold writeToken
  cases hp : isPlainlyBracketed token with
  | true => exact h hp
  | false =>
      have hescaped : '\n' ∉ token.toList.flatMap escape := by
        intro hmem
        obtain ⟨c, -, hc⟩ := List.mem_flatMap.1 hmem
        exact newline_not_mem_escape c hc
      simpa using hescaped

theorem newline_not_mem_writeBody (h : rule.OnOneLine) : '\n' ∉ writeBody rule.tokens := by
  rw [Rule.onOneLine_iff] at h
  obtain ⟨list⟩ := rule
  induction list with
  | nil => decide
  | cons token more ih =>
      obtain ⟨htoken, hmore⟩ := List.forall_mem_cons.1 h
      have hfirst := newline_not_mem_writeToken htoken
      cases more with
      | nil =>
          rw [writeBody, List.map_singleton, List.intercalate_singleton]
          exact hfirst
      | cons next more =>
          rw [writeBody_cons_cons]
          simp [hfirst, ih hmore]

theorem newline_not_mem_line (hkey : IsKey symbol) (h : rule.OnOneLine) :
    '\n' ∉ line symbol rule := by
  obtain ⟨name, -, -, hbreak, hsymbol⟩ := hkey
  simp [line, writeRule, hsymbol, hbreak, newline_not_mem_writeBody h]

end Listing

/-! ## Round trip -/

namespace Grammar

variable {g : Grammar}

theorem toList_listing (g : Grammar) :
    g.listing.toList = g.pairs.flatMap fun pair => Listing.line pair.1 pair.2 ++ ['\n'] := by
  rw [listing, String.toList_ofList, pairs, List.flatMap_assoc]
  simp only [List.flatMap_map]
  rfl

/-- All symbols that are read from a listing can be written in one, and have rules. -/
theorem isKey_of_ofListing {source : String} (h : Grammar.ofListing source = .ok g) :
    ∀ entry ∈ g.rules.entries, IsKey entry.1 ∧ entry.2 ≠ [] := by
  obtain ⟨-, list, hreads, rfl⟩ := ofListing_eq_ok_iff.1 h
  intro entry hentry
  obtain ⟨hrules, ⟨symbol, rule⟩, hpair, hsymbol⟩ := exists_of_mem_entries_ofPairs hentry
  have hread := List.mem_map_of_mem (f := (.ok : String × Rule → Except Fault _)) hpair
  rw [← hreads] at hread
  obtain ⟨b, hb, hread⟩ := List.mem_map.1 hread
  have hbreak : '\n' ∉ b.text := by
    refine Listing.not_mem_of_mem_closed (by decide) ?_ (by simp) hb
    exact fun _ => Text.not_mem_of_mem_split
  obtain ⟨body, hrule, -⟩ := Listing.Block.read_eq_ok_iff.1 hread
  rw [← hsymbol]
  exact ⟨hrule.isKey hbreak, hrules⟩

/-- A grammar whose tokens in angle brackets do not break lines is read back from its listing
exactly if its symbols are names in angle brackets on one line and have rules. -/
theorem ofListing_listing_eq_ok_iff (g : Grammar)
    (h : ∀ entry ∈ g.rules.entries, ∀ rule ∈ entry.2, rule.OnOneLine) :
    Grammar.ofListing g.listing = .ok g ↔
      ∀ entry ∈ g.rules.entries, IsKey entry.1 ∧ entry.2 ≠ [] := by
  refine ⟨isKey_of_ofListing, fun hkeys => ?_⟩
  have hpairs : ∀ pair ∈ g.pairs, IsKey pair.1 ∧ pair.2.OnOneLine := by
    intro pair hpair
    obtain ⟨entry, hentry, hsymbol, hrule⟩ := mem_pairs hpair
    rw [hsymbol]
    exact ⟨(hkeys entry hentry).1, h entry hentry pair.2 hrule⟩
  have hlines : Text.lines g.listing.toList =
      g.pairs.map (fun pair => Listing.line pair.1 pair.2) ++ [[]] := by
    rw [toList_listing]
    exact Text.lines_flatMap _ fun pair hpair =>
      Listing.newline_not_mem_line (hpairs pair hpair).1 (hpairs pair hpair).2
  obtain ⟨hunclosed, hclosed⟩ := Listing.layout_lines (fun pair hpair => (hpairs pair hpair).1) 1
  rw [← hlines] at hunclosed hclosed
  exact ofListing_eq_ok_iff.2
    ⟨hunclosed, g.pairs, hclosed, (ofPairs_pairs fun entry hentry => (hkeys entry hentry).2).symm⟩

/-- Tokens that hold what stands between tokens and around them. -/
def awkward : Grammar :=
  ⟨⟨[("<a b>",
      [⟨[]⟩, ⟨["", ", ", "<a b>", "<>", "<a>b>"]⟩, ⟨["]\n# \x22\\", "<\n", " \r\t"]⟩])],
    List.pairwise_singleton _ _⟩⟩

theorem ofListing_listing_awkward :
    (∀ entry ∈ awkward.rules.entries, ∀ rule ∈ entry.2, rule.OnOneLine) ∧
      Grammar.ofListing awkward.listing = .ok awkward ∧
      Grammar.ofListing (declare awkward "<c>").listing ≠ .ok (declare awkward "<c>") := by
  have hlines : ∀ entry ∈ awkward.rules.entries, ∀ rule ∈ entry.2, rule.OnOneLine := by
    simp only [Rule.onOneLine_iff]
    decide
  have hmore : ∀ entry ∈ (declare awkward "<c>").rules.entries, ∀ rule ∈ entry.2,
      rule.OnOneLine := by
    simp only [Rule.onOneLine_iff]
    decide
  refine ⟨hlines, (ofListing_listing_eq_ok_iff awkward hlines).2 ?_, fun hread => ?_⟩
  · intro entry hentry
    obtain rfl := List.mem_singleton.1 hentry
    exact ⟨⟨['a', ' ', 'b'], by decide⟩, by decide⟩
  · have hkeys := (ofListing_listing_eq_ok_iff _ hmore).1 hread
    exact (hkeys ("<c>", []) (by decide)).2 rfl

end Grammar

end GrammarSampler

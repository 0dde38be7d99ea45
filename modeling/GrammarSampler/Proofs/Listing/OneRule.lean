import GrammarSampler.Proofs.Listing.Format
import GrammarSampler.Proofs.Listing.Pieces
import GrammarSampler.Proofs.Listing.RoundTrip

/-!
# One rule, written and read

Between its square brackets a written rule is read back, whatever its tokens are. As the only line
of a listing it is read back exactly if no token in angle brackets breaks the line: such a token is
written as it is, and what is read in its place does not hold the line break.
-/

namespace GrammarSampler

variable {symbol other : String} {rule : Rule}

/-- A written rule stands in square brackets, and what stands between them is read as the rule. -/
theorem Rule.ofBody_text (rule : Rule) (line : Nat) :
    ∃ body, rule.text = "[" ++ body ++ "]" ∧ Rule.ofBody line body = .ok rule := by
  refine ⟨String.ofList (Listing.writeBody rule.tokens), ?_, ?_⟩
  · rw [← String.toList_inj]
    simp [Rule.text, Listing.writeRule]
  · rw [Rule.ofBody, String.toList_ofList, Listing.rule, Listing.tokens_writeBody]

/-! ## The first token that breaks the line -/

namespace Listing

open Text

/-- What is written before a token that comes after others. -/
def writeHead (before : List String) : List Char :=
  before.flatMap fun token => writeToken token ++ [',', ' ']

theorem exists_writeBody_eq (before : List String) (token : String) (more : List String) :
    ∃ tail, writeBody (before ++ token :: more) = writeHead before ++ writeToken token ++ tail := by
  induction before with
  | nil =>
      cases more with
      | nil => exact ⟨[], by simp [writeBody, writeHead]⟩
      | cons next more => exact ⟨_, writeBody_cons_cons token next more⟩
  | cons first before ih =>
      obtain ⟨tail, hbody⟩ := ih
      obtain ⟨next, rest, hnext⟩ : ∃ next rest, before ++ token :: more = next :: rest :=
        List.exists_cons_of_ne_nil (by simp)
      refine ⟨tail, ?_⟩
      rw [hnext] at hbody
      rw [List.cons_append, hnext, writeBody_cons_cons, hbody]
      simp [writeHead]

theorem tokens_writeHead (before : List String) (rest : List Char) :
    tokens (writeHead before ++ rest) = (tokens rest).map (before ++ ·) := by
  induction before with
  | nil => cases hrest : tokens rest <;> simp [writeHead, hrest, Except.map]
  | cons token before ih =>
      have hhead : writeHead (token :: before) ++ rest =
          writeToken token ++ ',' :: ' ' :: (writeHead before ++ rest) := by
        simp [writeHead]
      rw [hhead, tokens_writeToken, tokens_separator (by decide), tokens_separator (by decide), ih]
      cases tokens rest <;> rfl

theorem newline_not_mem_writeHead {before : List String} (h : Rule.OnOneLine ⟨before⟩) :
    '\n' ∉ writeHead before := by
  rw [Rule.onOneLine_iff] at h
  intro hmem
  obtain ⟨token, htoken, hmem⟩ := List.mem_flatMap.1 hmem
  simp [newline_not_mem_writeToken (h token htoken)] at hmem

theorem exists_first_break {list : List String} (h : ¬ Rule.OnOneLine ⟨list⟩) :
    ∃ before token more, list = before ++ token :: more ∧ Rule.OnOneLine ⟨before⟩ ∧
      isPlainlyBracketed token = true ∧ '\n' ∈ token.toList := by
  simp only [Rule.onOneLine_iff] at h ⊢
  induction list with
  | nil => exact absurd (List.forall_mem_nil _) h
  | cons first list ih =>
      by_cases hbreak : isPlainlyBracketed first = true ∧ '\n' ∈ first.toList
      · exact ⟨[], first, list, rfl, List.forall_mem_nil _, hbreak⟩
      · have hfirst : isPlainlyBracketed first = true → '\n' ∉ first.toList :=
          not_and.1 hbreak
        obtain ⟨before, token, more, rfl, hbefore, htoken⟩ :=
          ih fun hlist => h (List.forall_mem_cons.2 ⟨hfirst, hlist⟩)
        exact ⟨first :: before, token, more, rfl, List.forall_mem_cons.2 ⟨hfirst, hbefore⟩, htoken⟩

/-- A name in angle brackets is read with what the text holds. -/
theorem exists_token_of_bracket {text : List Char} {list : List String}
    (h : tokens ('<' :: text) = .ok list) :
    ∃ token more, list = token :: more ∧ token.toList ⊆ '<' :: text := by
  by_cases hclose : '>' ∈ text
  · obtain ⟨name, rest, rfl, hname⟩ := List.eq_append_cons_of_mem hclose
    rw [← List.cons_append, tokens_bracketed hname] at h
    cases hrest : tokens rest with
    | error cause => simp [hrest, Except.map] at h
    | ok more =>
        rw [hrest] at h
        cases h
        refine ⟨_, more, rfl, ?_⟩
        rw [String.toList_ofList]
        intro c hc
        simp at hc ⊢
        tauto
  · rw [tokens_of_stuck (.bracket hclose)] at h
    cases h

/-- What is written of a line before a token that comes after others. -/
def lineStart (symbol : String) (before : List String) : List Char :=
  symbol.toList ++ [' ', ':', ':', '=', ' '] ++ '[' :: writeHead before

theorem newline_not_mem_lineStart {before : List String} (hkey : IsKey symbol)
    (h : Rule.OnOneLine ⟨before⟩) : '\n' ∉ lineStart symbol before := by
  obtain ⟨name, -, -, hbreak, hsymbol⟩ := hkey
  simp [lineStart, hsymbol, hbreak, newline_not_mem_writeHead h]

/-- Where a token breaks its line, the line ends within the token. -/
theorem exists_lines_eq {before : List String} {token : String} (hkey : IsKey symbol)
    (hbefore : Rule.OnOneLine ⟨before⟩) (hplain : isPlainlyBracketed token = true)
    (hbreak : '\n' ∈ token.toList) (more : List String) : ∃ start rest,
      lines (line symbol ⟨before ++ token :: more⟩ ++ ['\n']) =
        (lineStart symbol before ++ '<' :: start) :: rest := by
  obtain ⟨name, -, htoken⟩ := isPlainlyBracketed_iff.1 hplain
  have hname : '\n' ∈ name := by simpa [htoken] using hbreak
  obtain ⟨start, rest, rfl, hstart⟩ := List.eq_append_cons_of_mem hname
  obtain ⟨tail, hbody⟩ := exists_writeBody_eq before token more
  have hline : line symbol ⟨before ++ token :: more⟩ ++ ['\n'] =
      (lineStart symbol before ++ '<' :: start) ++
        '\n' :: (rest ++ '>' :: tail ++ [']', '\n']) := by
    rw [line, writeRule, hbody, writeToken, if_pos hplain, htoken]
    simp [lineStart]
  rw [hline, lines, split_append]
  · exact ⟨start, _, rfl⟩
  · simp [newline_not_mem_lineStart hkey hbefore, hstart]

theorem trim_lineStart {before : List String} (hkey : IsKey symbol) (start : List Char) :
    trim (lineStart symbol before ++ '<' :: start) =
      lineStart symbol before ++ '<' :: trimEnd start := by
  obtain ⟨name, -, -, -, hsymbol⟩ := hkey
  have hdrop : (lineStart symbol before ++ '<' :: start).dropWhile isBlank =
      lineStart symbol before ++ '<' :: start := by
    rw [lineStart, hsymbol]
    exact List.dropWhile_cons_of_neg (by decide)
  rw [trim, hdrop, trimEnd_append_cons (by decide)]

theorem skips_lineStart {before : List String} (hkey : IsKey symbol) (start : List Char) :
    skips none (lineStart symbol before ++ '<' :: start) = false := by
  rw [skips, trim_lineStart hkey]
  obtain ⟨name, -, -, -, hsymbol⟩ := hkey
  rw [lineStart, hsymbol]
  rfl

/-- The first block begins as its first line does, and holds no line break. -/
theorem exists_block_eq {before : List String} {start : List Char} {more : List (List Char)}
    (hkey : IsKey symbol)
    (hlines : ∀ l ∈ (lineStart symbol before ++ '<' :: start) :: more, '\n' ∉ l)
    (hunclosed : (layout none 1 ((lineStart symbol before ++ '<' :: start) :: more)).unclosed =
      none) : ∃ text blocks,
        (layout none 1 ((lineStart symbol before ++ '<' :: start) :: more)).closed =
          ⟨1, lineStart symbol before ++ '<' :: text⟩ :: blocks ∧ '\n' ∉ '<' :: text := by
  obtain ⟨text, blocks, hclosed⟩ := exists_first_closed (skips_lineStart hkey start) hunclosed
  have hblock := not_mem_of_mem_closed (c := '\n') (by decide) hlines (by simp)
    (hclosed ▸ List.mem_cons_self)
  rw [trim_lineStart hkey, List.append_assoc, List.cons_append] at hclosed hblock
  exact ⟨_, blocks, hclosed, fun hmem => hblock (List.mem_append_right _ hmem)⟩

theorem IsRule.getLast?_eq {key body text : List Char} (h : IsRule key body text) :
    text.getLast? = some ']' := by
  cases h
  simp [List.getLast?_append, List.getLast?_cons]

/-- A rule that begins as it was written up to an angle bracket has the tokens before it, and then
one that is spelled by what follows. -/
theorem exists_tokens_of_read {b : Block} {before : List String} {text : List Char}
    (hkey : IsKey symbol)
    (htext : b.text = lineStart symbol before ++ '<' :: text)
    (hread : b.read = .ok (other, rule)) :
    ∃ token more, rule.tokens = before ++ token :: more ∧ token.toList ⊆ '<' :: text := by
  obtain ⟨body, hrule, htokens⟩ := Block.read_eq_ok_iff.1 hread
  obtain ⟨inner, rfl⟩ : ∃ inner, text = inner ++ [']'] := by
    have hlast := hrule.getLast?_eq
    rw [htext, List.getLast?_append_of_ne_nil _ (List.cons_ne_nil _ _)] at hlast
    obtain ⟨start, hstart⟩ := List.getLast?_eq_some_iff.1 hlast
    cases start with
    | nil => cases hstart
    | cons c inner => exact ⟨inner, (List.cons.inj hstart).2⟩
  have hwritten := isRule_of_isKey hkey (writeHead before ++ '<' :: inner)
  have hsame : b.text = symbol.toList ++ [' ', ':', ':', '=', ' '] ++
      ('[' :: (writeHead before ++ '<' :: inner) ++ [']']) := by
    rw [htext]
    simp [lineStart]
  rw [← hsame] at hwritten
  obtain ⟨-, rfl⟩ := hrule.unique hwritten
  rw [tokens_writeHead] at htokens
  cases hrest : tokens ('<' :: inner) with
  | error cause => simp [hrest, Except.map] at htokens
  | ok list =>
      rw [hrest] at htokens
      obtain ⟨token, more, rfl, hsubset⟩ := exists_token_of_bracket hrest
      refine ⟨token, more, (Except.ok.inj htokens).symm, List.Subset.trans hsubset ?_⟩
      simp

end Listing

/-! ## Listings of one rule -/

namespace Grammar

open Listing

/-- The grammar with one entry, which has one rule. -/
def single (symbol : String) (rule : Rule) : Grammar :=
  ⟨⟨[(symbol, [rule])], List.pairwise_singleton _ _⟩⟩

theorem eq_of_ofPairs_eq_single {first : Rule} {pairs : List (String × Rule)}
    (h : ofPairs ((other, first) :: pairs) = single symbol rule) : first = rule := by
  have hget := get?_ofPairs other ((other, first) :: pairs)
  rw [h, rulesWith_cons_self, if_neg (List.cons_ne_nil _ _), ← SymbolMap.mem_entries_iff] at hget
  obtain ⟨-, hrules⟩ := Prod.mk.inj (List.mem_singleton.1 hget)
  exact (List.cons.inj hrules).1

theorem toList_source (symbol : String) (rule : Rule) :
    (symbol ++ " ::= " ++ rule.text ++ "\n").toList = line symbol rule ++ ['\n'] := by
  simp [Rule.text, line]

theorem ofListing_single_of_onOneLine (hkey : IsKey symbol) (h : rule.OnOneLine) :
    ofListing (symbol ++ " ::= " ++ rule.text ++ "\n") = .ok (single symbol rule) := by
  have hlines : Text.lines (line symbol rule ++ ['\n']) = [line symbol rule, []] :=
    Text.split_append (newline_not_mem_line hkey h) []
  rw [ofListing_eq_ok_iff, toList_source, hlines, layout_line hkey]
  exact ⟨rfl, [(symbol, rule)], congrArg (· :: []) (read_line hkey rule 1), rfl⟩

theorem onOneLine_of_ofListing_single (hkey : IsKey symbol)
    (h : ofListing (symbol ++ " ::= " ++ rule.text ++ "\n") = .ok (single symbol rule)) :
    rule.OnOneLine := by
  obtain ⟨list⟩ := rule
  by_contra hbreaks
  obtain ⟨before, token, more, rfl, hbefore, hplain, hbreak⟩ := exists_first_break hbreaks
  obtain ⟨start, rest, hlines⟩ := exists_lines_eq hkey hbefore hplain hbreak more
  obtain ⟨hunclosed, pairs, hreads, hpairs⟩ := ofListing_eq_ok_iff.1 h
  rw [toList_source, hlines] at hunclosed hreads
  have hfree : ∀ l ∈ (lineStart symbol before ++ '<' :: start) :: rest, '\n' ∉ l := by
    rw [← hlines]
    exact fun l => Text.not_mem_of_mem_split
  obtain ⟨text, blocks, hclosed, htext⟩ := exists_block_eq hkey hfree hunclosed
  rw [hclosed] at hreads
  cases pairs with
  | nil => cases hreads
  | cons pair pairs =>
      obtain ⟨other, first⟩ := pair
      obtain ⟨hread, -⟩ := List.cons.inj hreads
      obtain rfl := eq_of_ofPairs_eq_single hpairs.symm
      -- what is read after the same tokens has to be the token that breaks its line
      obtain ⟨name, others, htokens, hsubset⟩ := exists_tokens_of_read hkey rfl hread
      obtain ⟨rfl, -⟩ := List.cons.inj (List.append_cancel_left htokens)
      exact htext (hsubset hbreak)

/-- As the only line of a listing, a rule of a key is read back exactly if it is on one line. -/
theorem ofListing_single_eq_ok_iff (symbol : String) (rule : Rule) (hkey : IsKey symbol) :
    ofListing (symbol ++ " ::= " ++ rule.text ++ "\n") = .ok (single symbol rule) ↔
      rule.OnOneLine :=
  ⟨onOneLine_of_ofListing_single hkey, ofListing_single_of_onOneLine hkey⟩

/-- Tokens with line breaks, in angle brackets that close twice and without. -/
def quotedBreaks : Rule := ⟨["]\n#", "<x y>", "<p>\n>", ""]⟩

/-- A token with a line break, in angle brackets that close at its end. -/
def bareBreak : Rule := ⟨["<a\nb>"]⟩

theorem ofListing_single_breaks :
    (IsKey "<# s>" ∧ quotedBreaks.OnOneLine ∧
      ofListing ("<# s>" ++ " ::= " ++ quotedBreaks.text ++ "\n") =
        .ok (single "<# s>" quotedBreaks)) ∧
    IsKey "<s>" ∧ ¬ bareBreak.OnOneLine ∧
      ofListing ("<s>" ++ " ::= " ++ bareBreak.text ++ "\n") ≠ .ok (single "<s>" bareBreak) := by
  have hkey : IsKey "<# s>" := ⟨['#', ' ', 's'], by decide⟩
  have hother : IsKey "<s>" := ⟨['s'], by decide⟩
  have hquoted : quotedBreaks.OnOneLine := by
    rw [Rule.onOneLine_iff]
    decide
  have hbare : ¬ bareBreak.OnOneLine := by
    rw [Rule.onOneLine_iff]
    decide
  exact ⟨⟨hkey, hquoted, (ofListing_single_eq_ok_iff "<# s>" quotedBreaks hkey).2 hquoted⟩, hother,
    hbare, (ofListing_single_eq_ok_iff "<s>" bareBreak hother).not.2 hbare⟩

/-- Not every rule of a key is read back: a line break in angle brackets becomes a space. -/
theorem not_ofListing_single : ¬ ∀ symbol rule, IsKey symbol →
    ofListing (symbol ++ " ::= " ++ rule.text ++ "\n") = .ok (single symbol rule) := by
  intro h
  have hread : ofListing ("<s>" ++ " ::= " ++ bareBreak.text ++ "\n") =
      .ok (single "<s>" ⟨["<a b>"]⟩) := by
    decide +kernel
  have hsame := h "<s>" bareBreak ⟨['s'], by decide⟩
  rw [hread] at hsame
  exact absurd (Except.ok.inj hsame) (by decide)

end Grammar

end GrammarSampler

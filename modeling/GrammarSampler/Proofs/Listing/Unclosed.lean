import GrammarSampler.Proofs.Listing.Joining
import GrammarSampler.Proofs.Listing.OneRule

/-!
# Rules without their closing bracket

A rule goes on until a line ends with a closing bracket. If the bracket of a rule is left out, the
next line is read as more of its body: the symbol, the sign and the opening bracket there are tokens
like any others, and that rule is lost. A fault is told only if there is no next line, or if the
quotes on it do not close when they are read in this way.
-/

namespace GrammarSampler

/-- The rule as it is written, but for its closing bracket. -/
def Rule.openText (rule : Rule) : String := String.ofList ('[' :: Listing.writeBody rule.tokens)

/-- The rule that is read where the body of `rule` goes on with the line of a rule of `symbol`, of
which `more` is the rest. -/
def Rule.merge (rule : Rule) (symbol : String) (more : Rule) : Rule :=
  ⟨rule.tokens ++ symbol :: "::=" :: more.tokens⟩

theorem Rule.text_eq_openText (rule : Rule) : rule.text = rule.openText ++ "]" := by
  rw [← String.toList_inj]
  simp [Rule.text, Rule.openText, Listing.writeRule]

namespace Listing

open Text

variable {symbol next : String} {rule : Rule} {b : Block} {n : Nat} {more : List (List Char)}

/-- The text without the last character of one of its lines, where the first line is number 0. -/
def cutLine (k : Nat) (source : String) : String :=
  String.ofList (['\n'].intercalate ((lines source.toList).modify k List.dropLast))

/-- A written line without its closing bracket. -/
def openLine (symbol : String) (rule : Rule) : List Char :=
  symbol.toList ++ [' ', ':', ':', '=', ' '] ++ '[' :: writeBody rule.tokens

theorem line_eq_openLine (symbol : String) (rule : Rule) :
    line symbol rule = openLine symbol rule ++ [']'] := by
  simp [line, openLine, writeRule]

/-! ## Lines that do not close -/

/-- Whether a line that ends with `c` stays open, and keeps `c` when it is trimmed. -/
def StaysOpen (c : Char) : Prop := isBlank c = false ∧ c ≠ ']'

theorem getLast?_writeToken (token : String) :
    ∃ c, StaysOpen c ∧ (writeToken token).getLast? = some c := by
  unfold writeToken
  cases hp : isPlainlyBracketed token with
  | true =>
      obtain ⟨name, -, htoken⟩ := isPlainlyBracketed_iff.1 hp
      refine ⟨'>', ⟨rfl, by decide⟩, ?_⟩
      rw [if_pos rfl, htoken, List.getLast?_concat]
  | false =>
      refine ⟨'\x22', ⟨rfl, by decide⟩, ?_⟩
      rw [if_neg Bool.false_ne_true, List.getLast?_concat]

theorem getLast?_writeBody (token : String) (more : List String) :
    ∃ c, StaysOpen c ∧ (writeBody (token :: more)).getLast? = some c := by
  induction more generalizing token with
  | nil =>
      rw [writeBody, List.map_singleton, List.intercalate_singleton]
      exact getLast?_writeToken token
  | cons next more ih =>
      obtain ⟨c, hc, hlast⟩ := ih next
      refine ⟨c, hc, ?_⟩
      rw [writeBody_cons_cons, List.getLast?_append, List.getLast?_cons, List.getLast?_cons, hlast]
      rfl

/-- A line without its closing bracket ends with the bracket that opens or with a token. -/
theorem exists_openLine_eq (h : IsKey symbol) (rule : Rule) :
    ∃ inner c, openLine symbol rule = '<' :: inner ++ [c] ∧ StaysOpen c := by
  obtain ⟨name, -, -, -, hsymbol⟩ := h
  obtain ⟨list⟩ := rule
  obtain ⟨c, hc, hlast⟩ : ∃ c, StaysOpen c ∧ ('[' :: writeBody list).getLast? = some c := by
    cases list with
    | nil => exact ⟨'[', ⟨rfl, by decide⟩, rfl⟩
    | cons token more =>
        obtain ⟨c, hc, hlast⟩ := getLast?_writeBody token more
        refine ⟨c, hc, ?_⟩
        rw [List.getLast?_cons, hlast]
        rfl
  obtain ⟨start, hstart⟩ := List.getLast?_eq_some_iff.1 hlast
  refine ⟨name ++ '>' :: ' ' :: ':' :: ':' :: '=' :: ' ' :: start, c, ?_, hc⟩
  rw [openLine, hsymbol, hstart]
  simp

/-- A line that begins with an angle bracket and ends with no blank is taken as it is. -/
theorem trim_eq_and_skips_eq {current : Option Block} {l inner : List Char} {c : Char}
    (hl : l = '<' :: inner ++ [c]) (hc : isBlank c = false) :
    trim l = l ∧ skips current l = false := by
  have htrim : trim l = l := by
    rw [hl]
    exact trim_eq_self (by decide) hc inner
  refine ⟨htrim, ?_⟩
  rw [skips, htrim, hl]
  simp [isComment]

theorem layout_openLine (h : IsKey symbol) (rule : Rule) (n : Nat) (more : List (List Char)) :
    layout none n (openLine symbol rule :: more) =
      layout (some ⟨n, openLine symbol rule⟩) (n + 1) more := by
  obtain ⟨inner, c, hline, hblank, hopen⟩ := exists_openLine_eq h rule
  obtain ⟨htrim, hskip⟩ := @trim_eq_and_skips_eq none _ _ _ hline hblank
  have hclosed : (Block.resume none n (trim (openLine symbol rule))).isClosed = false := by
    rw [htrim, hline, Block.isClosed, Block.resume, List.getLast?_concat]
    simpa using hopen
  rw [layout_continue hskip hclosed, htrim]
  rfl

/-- A written line closes the block that is open. -/
theorem layout_line_of_open (h : IsKey symbol) (b : Block) (rule : Rule) (n : Nat)
    (more : List (List Char)) :
    layout (some b) n (line symbol rule :: more) =
      ⟨b.extend (line symbol rule) :: (layout none (n + 1) more).closed,
        (layout none (n + 1) more).unclosed⟩ := by
  obtain ⟨inner, hline⟩ := line_eq h rule
  obtain ⟨htrim, hskip⟩ := @trim_eq_and_skips_eq (some b) _ _ _ hline (by decide)
  have hclosed : (Block.resume (some b) n (trim (line symbol rule))).isClosed = true := by
    rw [htrim, hline, Block.isClosed, Block.resume, Block.extend, ← List.cons_append,
      ← List.append_assoc, List.getLast?_concat, beq_self_eq_true]
  rw [layout_close hskip hclosed, htrim]
  rfl

/-- A blank line at the end leaves a block open. -/
theorem layout_end_of_open (b : Block) (n : Nat) :
    layout (some b) n [[]] = ⟨[], some (b.extend [])⟩ := by
  have hclosed : (Block.resume (some b) n (trim [])).isClosed = false := by
    rw [Block.isClosed, Block.resume]
    simp [Block.extend, trim, trimEnd]
  rw [layout_continue rfl hclosed]
  rfl

theorem layout_lines_append {pairs : List (String × Rule)} (h : ∀ pair ∈ pairs, IsKey pair.1)
    (n : Nat) (more : List (List Char)) : ∃ blocks : List Block,
      blocks.map Block.read = pairs.map .ok ∧
        layout none n (pairs.map (fun pair => line pair.1 pair.2) ++ more) =
          ⟨blocks ++ (layout none (n + pairs.length) more).closed,
            (layout none (n + pairs.length) more).unclosed⟩ := by
  induction pairs generalizing n with
  | nil => exact ⟨[], rfl, rfl⟩
  | cons pair pairs ih =>
      obtain ⟨hkey, hkeys⟩ := List.forall_mem_cons.1 h
      obtain ⟨blocks, hread, hlayout⟩ := ih hkeys (n + 1)
      refine ⟨⟨n, line pair.1 pair.2⟩ :: blocks, ?_, ?_⟩
      · rw [List.map_cons, read_line hkey, hread, List.map_cons]
      · rw [List.map_cons, List.cons_append, layout_line hkey, hlayout, List.length_cons,
          Nat.add_assoc, Nat.add_comm 1]
        rfl

/-! ## The next rule as tokens -/

theorem Piece.Before.of_nil {word rest : List Char} (h : (Piece.bare word).Before [])
    (hrest : ∀ c ∈ rest.head?, EndsWord c) : (Piece.bare word).Before rest :=
  ⟨h.1, h.2.1, h.2.2.1, hrest⟩

theorem tokens_writeBody_append (list : List String) (rest : List Char) :
    tokens (writeBody list ++ rest) = (tokens rest).map (list ++ ·) := by
  induction list with
  | nil => cases hrest : tokens rest <;> simp [writeBody, hrest, Except.map]
  | cons token more ih =>
      cases more with
      | nil =>
          rw [writeBody, List.map_singleton, List.intercalate_singleton]
          exact tokens_writeToken token rest
      | cons next more =>
          rw [writeBody_cons_cons, List.append_assoc, tokens_writeToken, List.cons_append,
            tokens_separator (by decide), List.cons_append, tokens_separator (by decide), ih]
          cases tokens rest <;> rfl

theorem tokens_key (h : IsKey symbol) (rest : List Char) :
    tokens (symbol.toList ++ rest) = (tokens rest).map (symbol :: ·) := by
  obtain ⟨name, -, hplain, -, hsymbol⟩ := h
  have hread := tokens_bracketed hplain rest
  rw [← hsymbol, String.ofList_toList] at hread
  rw [hsymbol, List.append_assoc]
  exact hread

theorem tokens_sign (rest : List Char) :
    tokens ([' ', ':', ':', '=', ' '] ++ rest) = (tokens rest).map ("::=" :: ·) := by
  have hends : ∀ c ∈ (' ' :: rest).head?, EndsWord c := by
    rintro _ ⟨⟩
    exact .inr (.inr rfl)
  have hsign : (Piece.bare [':', ':', '=']).Before [] := by decide
  have hread := tokens_of_before (hsign.of_nil hends)
  rw [tokens_separator (by decide)] at hread
  rw [List.cons_append, tokens_separator (by decide)]
  exact hread

/-- A body and the line of a rule after it are the tokens of the body, the symbol, the sign and what
is read from the rule without its closing bracket. -/
theorem tokens_writeBody_openLine (h : IsKey next) (list : List String) (rule : Rule) :
    tokens (writeBody list ++ ' ' :: openLine next rule) =
      (tokens ('[' :: writeBody rule.tokens)).map fun more => list ++ next :: "::=" :: more := by
  have hline : openLine next rule =
      next.toList ++ ([' ', ':', ':', '=', ' '] ++ '[' :: writeBody rule.tokens) := by
    rw [openLine, List.append_assoc]
  rw [tokens_writeBody_append, tokens_separator (by decide), hline, tokens_key h, tokens_sign]
  cases tokens ('[' :: writeBody rule.tokens) <;> rfl

theorem read_merged (hkey : IsKey symbol) (hnext : IsKey next) (rule following : Rule) (n : Nat) :
    (Block.extend ⟨n, openLine symbol rule⟩ (line next following)).read =
      (Rule.ofBody n following.openText).map fun more => (symbol, rule.merge next more) := by
  have hrule := isRule_of_isKey hkey (writeBody rule.tokens ++ ' ' :: openLine next following)
  have htext : (Block.extend ⟨n, openLine symbol rule⟩ (line next following)).text =
      symbol.toList ++ [' ', ':', ':', '=', ' '] ++
        ('[' :: (writeBody rule.tokens ++ ' ' :: openLine next following) ++ [']']) := by
    rw [Block.extend, line_eq_openLine, openLine]
    simp
  rw [← htext, ← Block.split?_eq_some_iff] at hrule
  rw [Block.read, hrule]
  simp only [Listing.rule, Rule.ofBody, Rule.openText, String.toList_ofList, String.ofList_toList,
    tokens_writeBody_openLine hnext]
  cases tokens ('[' :: writeBody following.tokens) <;> rfl

/-- If a rule is empty, or begins with a name in angle brackets, its opening bracket is a token by
itself, and the tokens of the rule follow. -/
theorem ofBody_openText (rule : Rule) (line : Nat)
    (h : ∀ token ∈ rule.tokens.head?, isPlainlyBracketed token = true) :
    Rule.ofBody line rule.openText = .ok ⟨"[" :: rule.tokens⟩ := by
  obtain ⟨list⟩ := rule
  have hends : ∀ c ∈ (writeBody list).head?, EndsWord c := by
    cases list with
    | nil => rintro _ ⟨⟩
    | cons token more =>
        have hplain : isPlainlyBracketed token = true := h token rfl
        obtain ⟨name, -, htoken⟩ := isPlainlyBracketed_iff.1 hplain
        obtain ⟨tail, hbody⟩ := exists_writeBody_eq [] token more
        rw [List.nil_append, writeToken, if_pos hplain, htoken] at hbody
        rw [hbody]
        rintro _ ⟨⟩
        exact .inr (.inl rfl)
  have hopen : (Piece.bare ['[']).Before [] := by decide
  have hread := tokens_of_before (hopen.of_nil hends)
  rw [tokens_writeBody] at hread
  have htokens : tokens ('[' :: writeBody list) = .ok ("[" :: list) := hread
  rw [Rule.ofBody, Rule.openText, String.toList_ofList, Listing.rule, htokens]

theorem exists_message_of_ofBody {line : Nat} {body : String} {fault : Fault}
    (h : Rule.ofBody line body = .error fault) : ∃ message, fault = .parse line message := by
  rw [Rule.ofBody, Listing.rule] at h
  cases htokens : tokens body.toList with
  | ok list => simp [htokens] at h
  | error cause =>
      rw [htokens] at h
      cases h
      exact ⟨cause.message, rfl⟩

/-! ## Layouts with a rule that does not close -/

section

variable {before rest : List (String × Rule)} {good others : List Block}

theorem Layout.grammar_of_read (hgood : good.map Block.read = before.map .ok)
    (hothers : others.map Block.read = rest.map .ok) (b : Block) :
    Layout.grammar ⟨good ++ b :: others, none⟩ =
      b.read.map fun pair => Grammar.ofPairs (before ++ pair :: rest) := by
  cases hb : b.read with
  | ok pair =>
      refine Layout.grammar_eq_ok_iff.2 ⟨rfl, before ++ pair :: rest, ?_, rfl⟩
      rw [List.map_append, List.map_cons, hgood, hb, hothers, List.map_append, List.map_cons]
  | error fault =>
      exact Layout.grammar_eq_error_iff.2
        (.inl ⟨good, b, others, rfl, exists_read_of_map_eq hgood, hb⟩)

theorem Layout.grammar_of_unclosed (hgood : good.map Block.read = before.map .ok) (b : Block) :
    Layout.grammar ⟨good, some b⟩ = .error (Cause.unclosed.fault b.line) :=
  Layout.grammar_eq_error_iff.2 (.inr ⟨exists_read_of_map_eq hgood, b, rfl, rfl⟩)

/-- The last rule of a listing cannot do without its closing bracket. -/
theorem grammar_layout_last (hbefore : ∀ pair ∈ before, IsKey pair.1) (hkey : IsKey symbol)
    (rule : Rule) :
    (layout none 1
      (before.map (fun pair => line pair.1 pair.2) ++ [openLine symbol rule, []])).grammar =
      .error (Cause.unclosed.fault (before.length + 1)) := by
  obtain ⟨blocks, hread, hlayout⟩ := layout_lines_append hbefore 1 [openLine symbol rule, []]
  rw [hlayout, Nat.add_comm, layout_openLine hkey, layout_end_of_open, List.append_nil,
    Layout.grammar_of_unclosed hread]
  rfl

/-- Any other rule goes on with the line of the next one. -/
theorem grammar_layout_merged {following : Rule} (hbefore : ∀ pair ∈ before, IsKey pair.1)
    (hkey : IsKey symbol) (hnext : IsKey next) (hrest : ∀ pair ∈ rest, IsKey pair.1) (rule : Rule) :
    (layout none 1 (before.map (fun pair => line pair.1 pair.2) ++
      openLine symbol rule :: line next following ::
        (rest.map (fun pair => line pair.1 pair.2) ++ [[]]))).grammar =
      (Rule.ofBody (before.length + 1) following.openText).map fun more =>
        Grammar.ofPairs (before ++ (symbol, rule.merge next more) :: rest) := by
  obtain ⟨blocks, hread, hlayout⟩ := layout_lines_append hbefore 1
    (openLine symbol rule :: line next following ::
      (rest.map (fun pair => line pair.1 pair.2) ++ [[]]))
  obtain ⟨hunclosed, hclosed⟩ := layout_lines hrest (before.length + 1 + 1 + 1)
  rw [hlayout, Nat.add_comm, layout_openLine hkey, layout_line_of_open hnext, hunclosed,
    Layout.grammar_of_read hread hclosed, read_merged hkey hnext]
  cases Rule.ofBody (before.length + 1) following.openText <;> rfl

end

/-! ## Listings with a line cut short -/

theorem modify_append_cons {α : Type} (f : α → α) (first : List α) (a : α) (more : List α) :
    (first ++ a :: more).modify first.length f = first ++ f a :: more := by
  induction first with
  | nil => rfl
  | cons b first ih =>
      rw [List.cons_append, List.length_cons, List.modify_succ_cons, ih, List.cons_append]

/-- In a text of written rules, a line that is cut short lacks its closing bracket. -/
theorem lines_cutLine {source : String} {before after : List (String × Rule)}
    (hlines : lines source.toList =
      (before ++ (symbol, rule) :: after).map (fun pair => line pair.1 pair.2) ++ [[]]) :
    lines (cutLine before.length source).toList =
      before.map (fun pair => line pair.1 pair.2) ++
        openLine symbol rule :: (after.map (fun pair => line pair.1 pair.2) ++ [[]]) := by
  have hbreak : ∀ l ∈ lines source.toList, '\n' ∉ l := fun _ => not_mem_of_mem_split
  have hcut : (lines source.toList).modify before.length List.dropLast =
      before.map (fun pair => line pair.1 pair.2) ++
        openLine symbol rule :: (after.map (fun pair => line pair.1 pair.2) ++ [[]]) := by
    have hmodify := modify_append_cons List.dropLast
      (before.map fun pair => line pair.1 pair.2) (line symbol rule)
      (after.map (fun pair => line pair.1 pair.2) ++ [[]])
    rw [List.length_map, line_eq_openLine, List.dropLast_concat, ← line_eq_openLine] at hmodify
    rw [hlines, List.map_append, List.map_cons, List.append_assoc, List.cons_append, hmodify]
  have hopen : '\n' ∉ openLine symbol rule := by
    have hline := hbreak (line symbol rule) (by simp [hlines])
    rw [line_eq_openLine] at hline
    exact fun hmem => hline (List.mem_append_left _ hmem)
  rw [cutLine, String.toList_ofList, hcut]
  refine lines_intercalate (by simp) ?_
  intro l hl
  rw [hlines] at hbreak
  simp only [List.mem_append, List.mem_cons, List.map_append, List.map_cons] at hl hbreak
  rcases hl with hl | rfl | hl | hl
  · exact hbreak l (.inl (.inl hl))
  · exact hopen
  · exact hbreak l (.inl (.inr (.inr hl)))
  · exact hbreak l (.inr hl)

end Listing

namespace Grammar

open Listing

theorem isKey_of_mem_pairs {g : Grammar} (h : ofListing g.listing = .ok g) :
    ∀ pair ∈ g.pairs, IsKey pair.1 := by
  intro pair hpair
  obtain ⟨entry, hentry, hsymbol, -⟩ := mem_pairs hpair
  rw [hsymbol]
  exact (isKey_of_ofListing h entry hentry).1

theorem lines_listing {g : Grammar}
    (hlines : ∀ entry ∈ g.rules.entries, ∀ rule ∈ entry.2, rule.OnOneLine)
    (hkeys : ∀ pair ∈ g.pairs, IsKey pair.1) :
    Text.lines g.listing.toList = g.pairs.map (fun pair => line pair.1 pair.2) ++ [[]] := by
  rw [toList_listing]
  refine Text.lines_flatMap _ fun pair hpair => newline_not_mem_line (hkeys pair hpair) ?_
  obtain ⟨entry, hentry, -, hrule⟩ := mem_pairs hpair
  exact hlines entry hentry pair.2 hrule

/-- If a rule of a listing lacks its closing bracket, any fault is told by the line of the rule. For
the last rule one is told. Any other rule goes on with the line of the next one, which is merged
into it and lost unless what is left of its body cannot be read; it always is if it is empty, or if
it begins with a name in angle brackets. -/
theorem ofListing_cutLine (g : Grammar)
    (hlines : ∀ entry ∈ g.rules.entries, ∀ rule ∈ entry.2, rule.OnOneLine)
    (hread : ofListing g.listing = .ok g) (before : List (String × Rule)) (symbol : String)
    (rule : Rule) (after : List (String × Rule))
    (hpairs : g.pairs = before ++ (symbol, rule) :: after) :
    (∀ fault, ofListing (cutLine before.length g.listing) = .error fault →
      ∃ message, fault = .parse (before.length + 1) message) ∧
    (after = [] → ofListing (cutLine before.length g.listing) =
      .error (.parse (before.length + 1) Cause.unclosed.message)) ∧
    ∀ next following rest, after = (next, following) :: rest →
      (ofListing (cutLine before.length g.listing) =
        (Rule.ofBody (before.length + 1) following.openText).map fun more =>
          ofPairs (before ++ (symbol, rule.merge next more) :: rest)) ∧
      ((∀ token ∈ following.tokens.head?, isPlainlyBracketed token = true) →
        ofListing (cutLine before.length g.listing) =
          .ok (ofPairs (before ++
            (symbol, rule.merge next ⟨"[" :: following.tokens⟩) :: rest))) := by
  have hkeys := isKey_of_mem_pairs hread
  have hcut := lines_listing hlines hkeys
  rw [hpairs] at hkeys hcut
  obtain ⟨hbefore, hkeys⟩ := List.forall_mem_append.1 hkeys
  obtain ⟨hkey, hafter⟩ := List.forall_mem_cons.1 hkeys
  rw [ofListing, lines_cutLine hcut]
  cases after with
  | nil =>
      have hlast := grammar_layout_last hbefore hkey rule
      rw [List.map_nil, List.nil_append, hlast]
      refine ⟨?_, fun _ => rfl, fun _ _ _ h => absurd h.symm (List.cons_ne_nil _ _)⟩
      rintro _ ⟨⟩
      exact ⟨_, rfl⟩
  | cons pair rest =>
      obtain ⟨next, following⟩ := pair
      obtain ⟨hnext, hrest⟩ := List.forall_mem_cons.1 hafter
      have hmerged := @grammar_layout_merged _ _ before rest following hbefore hkey hnext hrest rule
      rw [List.map_cons, List.cons_append, hmerged]
      refine ⟨fun fault hfault => ?_, fun h => absurd h (List.cons_ne_nil _ _), fun _ _ _ h => ?_⟩
      · cases hbody : Rule.ofBody (before.length + 1) following.openText with
        | ok more => simp [hbody, Except.map] at hfault
        | error other =>
            obtain ⟨message, rfl⟩ := exists_message_of_ofBody hbody
            rw [hbody] at hfault
            cases hfault
            exact ⟨message, rfl⟩
      · cases h
        refine ⟨rfl, fun hplain => ?_⟩
        rw [ofBody_openText following _ hplain]
        rfl

/-- A rule before one that begins with a name in angle brackets, which stands before one that holds
a quote. -/
def threeLines : Grammar :=
  ⟨⟨[("<a>", [⟨["x"]⟩]), ("<b>", [⟨["<a>"]⟩, ⟨["y \x27"]⟩])], by decide⟩⟩

/-- What is read if the first rule of the three lacks its closing bracket. -/
def twoOfThree : Grammar :=
  ⟨⟨[("<a>", [⟨["x", "<b>", "::=", "[", "<a>"]⟩]), ("<b>", [⟨["y \x27"]⟩])], by decide⟩⟩

theorem onOneLine_threeLines :
    ∀ entry ∈ threeLines.rules.entries, ∀ rule ∈ entry.2, rule.OnOneLine := by
  simp only [Rule.onOneLine_iff]
  decide

theorem ofListing_threeLines : ofListing threeLines.listing = .ok threeLines := by
  decide +kernel

theorem ofListing_cutLine_threeLines :
    (∀ entry ∈ threeLines.rules.entries, ∀ rule ∈ entry.2, rule.OnOneLine) ∧
      ofListing threeLines.listing = .ok threeLines ∧
      ofListing (cutLine 0 threeLines.listing) = .ok twoOfThree ∧
      ofListing (cutLine 1 threeLines.listing) =
        .error (.parse 2 (Cause.openQuote ['\x27', '\x22']).message) ∧
      ofListing (cutLine 2 threeLines.listing) = .error (.parse 3 Cause.unclosed.message) := by
  have hcut := fun before symbol rule after =>
    ofListing_cutLine threeLines onOneLine_threeLines ofListing_threeLines before symbol rule after
  obtain ⟨-, -, hfirst⟩ := hcut [] "<a>" ⟨["x"]⟩ [("<b>", ⟨["<a>"]⟩), ("<b>", ⟨["y \x27"]⟩)] rfl
  obtain ⟨-, -, hsecond⟩ :=
    hcut [("<a>", ⟨["x"]⟩)] "<b>" ⟨["<a>"]⟩ [("<b>", ⟨["y \x27"]⟩)] rfl
  obtain ⟨-, hlast, -⟩ :=
    hcut [("<a>", ⟨["x"]⟩), ("<b>", ⟨["<a>"]⟩)] "<b>" ⟨["y \x27"]⟩ [] rfl
  refine ⟨onOneLine_threeLines, ofListing_threeLines, ?_, ?_, hlast rfl⟩
  · exact (hfirst _ _ _ rfl).2 (by decide)
  · refine (hsecond _ _ _ rfl).1.trans ?_
    decide +kernel

/-- Not every rule that lacks its closing bracket is told: it goes on with the line of the next
rule, whose bracket closes both. -/
theorem not_ofListing_cutLine : ¬ ∀ g : Grammar,
    (∀ entry ∈ g.rules.entries, ∀ rule ∈ entry.2, rule.OnOneLine) →
    ofListing g.listing = .ok g → ∀ k < g.pairs.length,
      ∃ message, ofListing (cutLine k g.listing) = .error (.parse (k + 1) message) := by
  intro h
  have hsource : cutLine 0 threeLines.listing =
      "<a> ::= [\x22x\x22\n<b> ::= [<a>]\n<b> ::= [\x22y \x27\x22]\n" := by
    decide +kernel
  have hread : ofListing "<a> ::= [\x22x\x22\n<b> ::= [<a>]\n<b> ::= [\x22y \x27\x22]\n" =
      .ok twoOfThree := by
    decide +kernel
  obtain ⟨message, hfault⟩ := h threeLines onOneLine_threeLines ofListing_threeLines 0 (by decide)
  rw [hsource, hread] at hfault
  cases hfault

end Grammar

end GrammarSampler

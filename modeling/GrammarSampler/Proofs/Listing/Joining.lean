import GrammarSampler.Proofs.Listing.Format

/-!
# Listings one after the other

Nothing is carried from one listing to the next. So what is read from two of them is read from both
together, the lines before a fault are a listing by themselves, and a fault in the second listing is
told by its line as counted from the first.
-/

namespace GrammarSampler

/-- The fault as told of a text that begins `k` lines later. -/
def Fault.shift (k : Nat) : Fault → Fault
  | .parse line message => .parse (line + k) message
  | fault => fault

namespace Listing

open Text

variable {current : Option Block} {n k : Nat} {lines : List (List Char)} {b : Block}

/-! ## Lines further down -/

def Block.shift (k : Nat) (b : Block) : Block := { b with line := b.line + k }

def Layout.shift (k : Nat) (l : Layout) : Layout :=
  ⟨l.closed.map (Block.shift k), l.unclosed.map (Block.shift k)⟩

theorem Block.resume_shift (current : Option Block) (n : Nat) (text : List Char) :
    Block.resume (current.map (Block.shift k)) (n + k) text =
      (Block.resume current n text).shift k := by
  cases current <;> rfl

theorem Block.isClosed_shift (b : Block) : (b.shift k).isClosed = b.isClosed := rfl

theorem skips_map_shift (current : Option Block) (line : List Char) :
    skips (current.map (Block.shift k)) line = skips current line := by
  rw [skips, Option.isNone_map, skips]

theorem layout_shift (current : Option Block) (n : Nat) (lines : List (List Char)) :
    layout (current.map (Block.shift k)) (n + k) lines = (layout current n lines).shift k := by
  induction lines generalizing current n with
  | nil => rfl
  | cons line lines ih =>
      have hnext : n + k + 1 = n + 1 + k := Nat.add_right_comm n k 1
      have hskips := skips_map_shift (k := k) current line
      cases hskip : skips current line with
      | true =>
          rw [hskip] at hskips
          rw [layout_skip hskips, layout_skip hskip, hnext, ih]
      | false =>
          rw [hskip] at hskips
          have hresume := Block.resume_shift (k := k) current n (trim line)
          have hstill := Block.isClosed_shift (k := k) (Block.resume current n (trim line))
          rw [← hresume] at hstill
          cases hclosed : (Block.resume current n (trim line)).isClosed with
          | true =>
              have hrest := ih none (n + 1)
              rw [Option.map_none] at hrest
              rw [layout_close hskips (hstill.trans hclosed), layout_close hskip hclosed, hresume,
                hnext, hrest]
              rfl
          | false =>
              rw [layout_continue hskips (hstill.trans hclosed), layout_continue hskip hclosed,
                hresume, hnext]
              exact ih (some (Block.resume current n (trim line))) (n + 1)

theorem Block.read_shift (b : Block) : (b.shift k).read = b.read.mapError (Fault.shift k) := by
  have hsplit : (b.shift k).split? = b.split? := rfl
  rw [Block.read, Block.read, hsplit]
  cases b.split? with
  | none => rfl
  | some split =>
      simp only [rule]
      cases tokens split.2 <;> rfl

theorem Block.read_shift_eq_ok_iff {pair : String × Rule} :
    (b.shift k).read = .ok pair ↔ b.read = .ok pair := by
  rw [read_shift]
  cases b.read <;> simp [Except.mapError]

theorem Block.line_of_read_eq_error {message : String} (h : b.read = .error (.parse n message)) :
    b.line = n := by
  unfold Block.read at h
  split at h
  · cases h
    rfl
  · next body _ =>
      rw [rule] at h
      cases ht : tokens body with
      | ok list => simp [ht, Except.map] at h
      | error cause =>
          simp only [ht, Except.map, Cause.fault, Except.error.injEq, Fault.parse.injEq] at h
          exact h.1

/-! ## Lines before a block -/

/-- All blocks of a layout, whether or not the last one closes. -/
def Layout.blocks (l : Layout) : List Block := l.closed ++ l.unclosed.toList

/-- A fault is told by the line of a block, and all blocks before that can be read. -/
theorem Layout.exists_block_of_grammar_eq_error {l : Layout} {message : String}
    (h : l.grammar = .error (.parse n message)) : ∃ good b more, l.blocks = good ++ b :: more ∧
      b.line = n ∧ ∀ b ∈ good, ∃ pair, b.read = .ok pair := by
  rcases grammar_eq_error_iff.1 h with
    ⟨good, bad, more, hclosed, hgood, hbad⟩ | ⟨hgood, b, hopen, hfault⟩
  · refine ⟨good, bad, more ++ l.unclosed.toList, ?_, Block.line_of_read_eq_error hbad, hgood⟩
    rw [blocks, hclosed, List.append_assoc, List.cons_append]
  · cases hfault
    exact ⟨l.closed, b, [], by rw [blocks, hopen, Option.toList_some], rfl, hgood⟩

/-- Whether a block begins in some lines, and the lines before it make the blocks `good`. -/
def BeginsAfter (current : Option Block) (n : Nat) (lines : List (List Char)) (good : List Block)
    (b : Block) : Prop :=
  ∃ before line after, lines = before ++ line :: after ∧ n + before.length = b.line ∧
    layout current n before = ⟨good, none⟩

section

variable {next : Option Block} {line : List Char} {good all more : List Block}

theorem BeginsAfter.cons (h : BeginsAfter next (n + 1) lines good b)
    (hstep : ∀ before, layout next (n + 1) before = ⟨good, none⟩ →
      layout current n (line :: before) = ⟨all, none⟩) :
    BeginsAfter current n (line :: lines) all b := by
  obtain ⟨before, first, after, rfl, hline, hlayout⟩ := h
  refine ⟨line :: before, first, after, rfl, ?_, hstep before hlayout⟩
  rw [List.length_cons, Nat.add_comm before.length, ← Nat.add_assoc]
  exact hline

/-- A block that a line goes on with has begun before, and any other begins with that line. -/
theorem begins_of_resume {text : List Char}
    (h : (Block.resume current n text).line = b.line) :
    (∃ c ∈ current, c.line = b.line) ∨ BeginsAfter current n (line :: lines) [] b := by
  cases current with
  | none => exact .inr ⟨[], line, lines, rfl, h, rfl⟩
  | some c => exact .inl ⟨c, rfl, h⟩

/-- Each block of some lines begins in them, unless it is the one that they go on with. -/
theorem begins_of_blocks_eq (h : (layout current n lines).blocks = good ++ b :: more) :
    (good = [] ∧ ∃ c ∈ current, c.line = b.line) ∨ BeginsAfter current n lines good b := by
  induction lines generalizing current n good with
  | nil =>
      have hcurrent : current.toList = good ++ b :: more := h
      cases current with
      | none => simp at hcurrent
      | some c =>
          obtain ⟨rfl, hb, -⟩ : good = [] ∧ c = b ∧ more = [] := by
            simpa [List.append_eq_singleton_iff, eq_comm] using hcurrent
          exact .inl ⟨rfl, c, rfl, congrArg Block.line hb⟩
  | cons line lines ih =>
      cases hskip : skips current line with
      | true =>
          rw [layout_skip hskip] at h
          exact (ih h).imp_right fun hbegins => hbegins.cons fun _ => (layout_skip hskip).trans
      | false =>
          cases hclosed : (Block.resume current n (trim line)).isClosed with
          | true =>
              rw [layout_close hskip hclosed, Layout.blocks, List.cons_append] at h
              cases good with
              | nil =>
                  obtain ⟨hb, -⟩ := List.cons.inj h
                  exact (begins_of_resume (congrArg Block.line hb)).imp_left fun hc => ⟨rfl, hc⟩
              | cons first good =>
                  obtain ⟨rfl, hrest⟩ := List.cons.inj h
                  have hbegins := (ih hrest).resolve_left (by simp)
                  refine .inr (hbegins.cons fun before hlayout => ?_)
                  rw [layout_close hskip hclosed, hlayout]
          | false =>
              rw [layout_continue hskip hclosed] at h
              rcases ih h with ⟨rfl, _, hc, hline⟩ | hbegins
              · cases hc
                exact (begins_of_resume hline).imp_left fun hc => ⟨rfl, hc⟩
              · exact .inr (hbegins.cons fun _ => (layout_continue hskip hclosed).trans)

end

/-! ## Blank ends -/

/-- Whether a text holds just the given lines, perhaps with other blanks at their ends and perhaps
with a line break after the last. -/
def Holds (source : String) (lines : List (List Char)) : Prop :=
  ∃ last ∈ [[], [[]]], (Text.lines source.toList).map trim = (lines ++ last).map trim

theorem layout_congr {other : List (List Char)} (h : lines.map trim = other.map trim) :
    layout current n lines = layout current n other := by
  induction lines generalizing current n other with
  | nil =>
      obtain rfl := List.map_eq_nil_iff.1 h.symm
      rfl
  | cons line lines ih =>
      obtain ⟨first, more, rfl, hline, hlines⟩ := List.map_eq_cons_iff.1 h.symm
      have hmore : ∀ {current n}, layout current n lines = layout current n more :=
        ih hlines.symm
      simp only [layout, hline, hmore]

theorem Holds.layout_eq {source : String} (h : Holds source lines) {closed : List Block}
    (hlayout : layout none n lines = ⟨closed, none⟩) :
    layout none n (Text.lines source.toList) = ⟨closed, none⟩ := by
  obtain ⟨last, hlast, hlines⟩ := h
  have hidle : ∀ m, layout none m last = ⟨[], none⟩ := by
    intro m
    rcases List.mem_pair.1 hlast with rfl | rfl <;> rfl
  rw [layout_congr hlines, layout_append hlayout, hidle, List.append_nil]

/-! ## Joined layouts -/

theorem exists_read_of_map_eq {blocks : List Block} {pairs : List (String × Rule)}
    (h : blocks.map Block.read = pairs.map .ok) : ∀ b ∈ blocks, ∃ pair, b.read = .ok pair := by
  intro b hb
  have hmem := List.mem_map_of_mem (f := Block.read) hb
  rw [h] at hmem
  obtain ⟨pair, -, hpair⟩ := List.mem_map.1 hmem
  exact ⟨pair, hpair.symm⟩

theorem map_read_shift {blocks : List Block} {pairs : List (String × Rule)}
    (h : blocks.map Block.read = pairs.map .ok) :
    (blocks.map (Block.shift k)).map Block.read = pairs.map .ok := by
  have hpairs : (pairs.map .ok).map (Except.mapError (Fault.shift k)) = pairs.map .ok := by
    rw [List.map_map]
    rfl
  rw [← hpairs, ← h, List.map_map, List.map_map]
  exact List.map_congr_left fun b _ => b.read_shift

theorem Layout.grammar_join_eq_ok {first second : Layout} {pairs more : List (String × Rule)}
    (hfirst : first.closed.map Block.read = pairs.map .ok)
    (hsecond : second.closed.map Block.read = more.map .ok) (hclosed : second.unclosed = none) :
    Layout.grammar ⟨first.closed ++ (second.shift k).closed, (second.shift k).unclosed⟩ =
      .ok (.ofPairs (pairs ++ more)) := by
  refine grammar_eq_ok_iff.2 ⟨by rw [shift, hclosed, Option.map_none], pairs ++ more, ?_, rfl⟩
  rw [List.map_append, List.map_append, hfirst, shift, map_read_shift hsecond]

theorem Layout.grammar_join_eq_error {first second : Layout} {fault : Fault}
    (hfirst : ∀ b ∈ first.closed, ∃ pair, b.read = .ok pair)
    (hsecond : second.grammar = .error fault) :
    Layout.grammar ⟨first.closed ++ (second.shift k).closed, (second.shift k).unclosed⟩ =
      .error (fault.shift k) := by
  have hshift : ∀ {blocks : List Block}, (∀ b ∈ blocks, ∃ pair, b.read = .ok pair) →
      ∀ b ∈ first.closed ++ blocks.map (Block.shift k), ∃ pair, b.read = .ok pair := by
    intro blocks hblocks
    refine List.forall_mem_append.2 ⟨hfirst, List.forall_mem_map.2 fun b hb => ?_⟩
    obtain ⟨pair, hpair⟩ := hblocks b hb
    exact ⟨pair, Block.read_shift_eq_ok_iff.2 hpair⟩
  rw [grammar_eq_error_iff] at hsecond ⊢
  rcases hsecond with ⟨good, bad, more, hsplit, hgood, hbad⟩ | ⟨hgood, b, hopen, rfl⟩
  · refine .inl ⟨_, bad.shift k, more.map (Block.shift k), ?_, hshift hgood, ?_⟩
    · rw [shift, hsplit, List.map_append, List.map_cons, List.append_assoc]
    · rw [Block.read_shift, hbad]
      rfl
  · refine .inr ⟨hshift hgood, b.shift k, ?_, rfl⟩
    rw [shift, hopen, Option.map_some]

end Listing

namespace Grammar

open Listing

variable {g : Grammar} {source a b : String}

theorem rulesOf_ofPairs (symbol : String) (list : List (String × Rule)) :
    (ofPairs list).rulesOf symbol = rulesWith symbol list :=
  (collects_iff.2 rfl).rulesOf_eq symbol

theorem defines_ofPairs_append (symbol : String) (list more : List (String × Rule)) :
    (ofPairs (list ++ more)).defines symbol =
      ((ofPairs list).defines symbol || (ofPairs more).defines symbol) := by
  have hdefines : ∀ list, (ofPairs list).defines symbol = true ↔ symbol ∈ list.map (·.1) :=
    fun list => (collects_iff.2 rfl).defines_iff symbol
  rw [Bool.eq_iff_iff, Bool.or_eq_true, hdefines, hdefines, hdefines, List.map_append,
    List.mem_append]

theorem layout_joined (h : ofListing a = .ok g) (b : String) :
    layout none 1 (Text.lines (a ++ "\n" ++ b).toList) =
      ⟨(layout none 1 (Text.lines a.toList)).closed ++
          ((layout none 1 (Text.lines b.toList)).shift (1 + a.toList.count '\n')).closed,
        ((layout none 1 (Text.lines b.toList)).shift (1 + a.toList.count '\n')).unclosed⟩ := by
  obtain ⟨hclosed, -⟩ := ofListing_eq_ok_iff.1 h
  have hfirst : layout none 1 (Text.lines a.toList) =
      ⟨(layout none 1 (Text.lines a.toList)).closed, none⟩ :=
    congrArg (Layout.mk _) hclosed
  have hlines : Text.lines (a ++ "\n" ++ b).toList =
      Text.lines a.toList ++ Text.lines b.toList := by
    rw [String.toList_append, String.toList_append, List.append_assoc]
    exact Text.split_append_cons a.toList b.toList
  have hshift := layout_shift (k := 1 + a.toList.count '\n') none 1 (Text.lines b.toList)
  have hlength : (Text.lines a.toList).length = 1 + a.toList.count '\n' :=
    Text.length_split '\n' a.toList
  rw [Option.map_none, ← hlength] at hshift
  rw [hlines, layout_append hfirst, hshift, hlength]

/-- The lines before a fault make blocks that close and can be read. -/
theorem exists_layout_take {n : Nat} {message : String}
    (h : ofListing source = .error (.parse n message)) :
    0 < n ∧ n ≤ (Text.lines source.toList).length ∧ ∃ good,
      layout none 1 ((Text.lines source.toList).take (n - 1)) = ⟨good, none⟩ ∧
        ∀ b ∈ good, ∃ pair, b.read = .ok pair := by
  obtain ⟨good, b, more, hblocks, hline, hgood⟩ := Layout.exists_block_of_grammar_eq_error h
  obtain ⟨before, line, after, hlines, hlength, hlayout⟩ :=
    (begins_of_blocks_eq hblocks).resolve_left (by simp)
  have hn : n = before.length + 1 := by rw [← hline, ← hlength, Nat.add_comm]
  have hcount : (Text.lines source.toList).length = before.length + (after.length + 1) := by
    rw [hlines, List.length_append, List.length_cons]
  refine ⟨by omega, by omega, good, ?_, hgood⟩
  rw [hlines, hn, Nat.add_sub_cancel, List.take_left, hlayout]

/-- Listings compose. A listing after one that is read adds its rules to those that are read, and if
it has a fault, just that is told, on a line further down. What comes before the line on which a
fault is told is a listing by itself. -/
theorem ofListing_joined :
    (∀ a b ga, ofListing a = .ok ga →
      (∀ gb, ofListing b = .ok gb → ∃ g, ofListing (a ++ "\n" ++ b) = .ok g ∧
        ∀ symbol, g.defines symbol = (ga.defines symbol || gb.defines symbol) ∧
          g.rulesOf symbol = ga.rulesOf symbol ++ gb.rulesOf symbol) ∧
      ∀ n message, ofListing b = .error (.parse n message) →
        ofListing (a ++ "\n" ++ b) =
          .error (.parse (n + (1 + a.toList.count '\n')) message)) ∧
    ∀ source n message, ofListing source = .error (.parse n message) →
      0 < n ∧ n ≤ (Text.lines source.toList).length ∧
        ∀ first, Holds first ((Text.lines source.toList).take (n - 1)) →
          ∃ g, ofListing first = .ok g := by
  refine ⟨fun a b ga ha => ?_, fun source n message h => ?_⟩
  · obtain ⟨-, pairs, hpairs, rfl⟩ := ofListing_eq_ok_iff.1 ha
    constructor
    · intro gb hb
      obtain ⟨hclosed, more, hmore, rfl⟩ := ofListing_eq_ok_iff.1 hb
      refine ⟨ofPairs (pairs ++ more), ?_, fun symbol => ⟨defines_ofPairs_append .., ?_⟩⟩
      · rw [ofListing, layout_joined ha]
        exact Layout.grammar_join_eq_ok hpairs hmore hclosed
      · rw [rulesOf_ofPairs, rulesOf_ofPairs, rulesOf_ofPairs, rulesWith_append]
    · intro n message hb
      rw [ofListing, layout_joined ha]
      exact Layout.grammar_join_eq_error (exists_read_of_map_eq hpairs) hb
  · obtain ⟨hpos, hle, good, hlayout, hgood⟩ := exists_layout_take h
    refine ⟨hpos, hle, fun first hfirst => ?_⟩
    obtain ⟨g, hg⟩ := exists_addBlocks_eq_ok_iff.2 hgood
    refine ⟨g, ?_⟩
    rw [ofListing, hfirst.layout_eq hlayout, Layout.grammar, hg]

/-- A comment, a rule over several lines with all kinds of ends, and one more. -/
def sums : String := "# sums\r\n<s> ::= [<n>,\r\n # and\r\n\n\t<s>]\n<s> ::= [<n>]"

def sumsGrammar : Grammar :=
  ⟨⟨[("<s>", [⟨["<n>", "<s>"]⟩, ⟨["<n>"]⟩])], List.pairwise_singleton _ _⟩⟩

/-- A rule for a symbol of its own and one for a symbol of the sums. -/
def numerals : String := "\n<n> ::= [1]\n<s> ::= []"

def numeralsGrammar : Grammar := ⟨⟨[("<n>", [⟨["1"]⟩]), ("<s>", [⟨[]⟩])], by decide⟩⟩

/-- The second rule does not close. -/
def unclosed : String := "<n> ::= [1]\n\n<n> ::=\n# none"

theorem ofListing_joined_sums :
    (∃ g, ofListing (sums ++ "\n" ++ numerals) = .ok g ∧
      g.rulesOf "<s>" = [⟨["<n>", "<s>"]⟩, ⟨["<n>"]⟩, ⟨[]⟩] ∧ g.rulesOf "<n>" = [⟨["1"]⟩]) ∧
    ofListing (sums ++ "\n" ++ unclosed) = .error (.parse 9 Cause.unclosed.message) ∧
    ∃ g, ofListing "<n> ::= [1]\n" = .ok g := by
  obtain ⟨hjoined, hbefore⟩ := ofListing_joined
  have hsums : ofListing sums = .ok sumsGrammar := by decide +kernel
  have hnumerals : ofListing numerals = .ok numeralsGrammar := by decide +kernel
  have hunclosed : ofListing unclosed = .error (.parse 3 Cause.unclosed.message) := by
    decide +kernel
  obtain ⟨g, hg, hrules⟩ := (hjoined sums numerals sumsGrammar hsums).1 numeralsGrammar hnumerals
  have hholds : Holds "<n> ::= [1]\n" ((Text.lines unclosed.toList).take 2) :=
    ⟨[], by decide, by decide +kernel⟩
  exact ⟨⟨g, hg, (hrules "<s>").2, (hrules "<n>").2⟩,
    (hjoined sums unclosed sumsGrammar hsums).2 3 _ hunclosed,
    (hbefore unclosed 3 _ hunclosed).2.2 _ hholds⟩

end Grammar

end GrammarSampler

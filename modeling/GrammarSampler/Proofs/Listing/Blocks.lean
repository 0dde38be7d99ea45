import GrammarSampler.Listing.Parser
import GrammarSampler.Proofs.Grammar.Pairs
import GrammarSampler.Proofs.Text.Lines

/-!
# Blocks that can be read

The form of a block that is a rule, and the grammar that the blocks of a listing give.
-/

namespace GrammarSampler

namespace Listing

open Text

/-! ## Rules -/

/-- Whether a text is a rule: a symbol, the sign and a body in square brackets. -/
inductive IsRule : List Char → List Char → List Char → Prop
  | intro {name before after body : List Char} (hname : name ≠ []) (hplain : '>' ∉ name)
      (hbefore : ∀ c ∈ before, isBlank c = true) (hafter : ∀ c ∈ after, isBlank c = true) :
      IsRule ('<' :: name ++ ['>']) body
        ('<' :: (name ++ '>' :: (before ++ ':' :: ':' :: '=' :: (after ++ '[' :: (body ++ [']'])))))

namespace Block

variable {b : Block} {symbol : String} {rule : Rule} {key body : List Char}

theorem split?_eq_some_iff : b.split? = some (key, body) ↔ IsRule key body b.text := by
  obtain ⟨line, text⟩ := b
  constructor
  · intro h
    unfold split? at h
    split at h
    · next rest htext =>
        split at h
        · next c name sign hname hrest =>
            split at h
            · next bracket hsign =>
                split at h
                · next inner hbracket =>
                    split at h
                    · next hlast =>
                        obtain ⟨body, rfl⟩ := List.getLast?_eq_some_iff.1 hlast
                        rw [List.dropLast_concat] at h
                        cases h
                        rw [htext, eq_append_of_dropWhile_eq_cons hrest,
                          eq_append_of_dropWhile_eq_cons hsign,
                          eq_append_of_dropWhile_eq_cons hbracket, hname]
                        have hplain : '>' ∉ c :: name := by
                          rw [← hname]
                          exact not_mem_takeWhile_bne '>' rest
                        exact .intro (List.cons_ne_nil _ _) hplain
                          (fun c hc => List.mem_takeWhile_imp hc)
                          (fun c hc => List.mem_takeWhile_imp hc)
                    · cases h
                · cases h
            · cases h
        · cases h
    · cases h
  · intro h
    cases h with
    | @intro name before after _ hname hplain hbefore hafter =>
        obtain ⟨c, more, rfl⟩ := List.exists_cons_of_ne_nil hname
        have hclose := forall_bne_of_not_mem hplain
        simp only [split?, takeWhile_append_cons hclose (c := '>') (by decide),
          dropWhile_append_cons hclose (c := '>') (by decide),
          dropWhile_append_cons hbefore (c := ':') (by decide),
          dropWhile_append_cons hafter (c := '[') (by decide), List.getLast?_concat, if_true,
          List.dropLast_concat]

theorem read_eq_ok_iff : b.read = .ok (symbol, rule) ↔
    ∃ body, IsRule symbol.toList body b.text ∧ tokens body = .ok rule.tokens := by
  constructor
  · intro h
    unfold read at h
    split at h
    · cases h
    · next key body hsplit =>
        refine ⟨body, ?_⟩
        cases ht : tokens body with
        | error cause => simp [Listing.rule, ht, Except.map] at h
        | ok list =>
            simp only [Listing.rule, ht, Except.map, Except.ok.injEq, Prod.mk.injEq] at h
            obtain ⟨rfl, rfl⟩ := h
            rw [String.toList_ofList]
            exact ⟨split?_eq_some_iff.1 hsplit, rfl⟩
  · intro h
    obtain ⟨body, hrule, htokens⟩ := h
    simp [read, split?_eq_some_iff.2 hrule, Listing.rule, htokens, Except.map]

end Block

/-! ## Grammars -/

theorem addBlocks_eq_ok_iff {g next : Grammar} {blocks : List Block} :
    addBlocks g blocks = .ok next ↔ ∃ pairs : List (String × Rule),
      blocks.map Block.read = pairs.map .ok ∧
        next = pairs.foldl (fun g pair => g.append pair.1 pair.2) g := by
  induction blocks generalizing g with
  | nil =>
      constructor
      · intro h
        cases h
        exact ⟨[], rfl, rfl⟩
      · intro h
        obtain ⟨pairs, hpairs, rfl⟩ := h
        cases pairs with
        | nil => rfl
        | cons => cases hpairs
  | cons b more ih =>
      cases hb : b.read with
      | error fault =>
          constructor
          · intro h
            simp [addBlocks, hb] at h
          · intro h
            obtain ⟨pairs, hpairs, -⟩ := h
            cases pairs <;> simp [hb] at hpairs
      | ok pair =>
          obtain ⟨symbol, rule⟩ := pair
          have hstep : addBlocks g (b :: more) = addBlocks (g.append symbol rule) more := by
            simp [addBlocks, hb]
          rw [hstep, ih]
          constructor
          · intro h
            obtain ⟨pairs, hpairs, rfl⟩ := h
            refine ⟨(symbol, rule) :: pairs, ?_, rfl⟩
            rw [List.map_cons, List.map_cons, hb, hpairs]
          · intro h
            obtain ⟨pairs, hpairs, rfl⟩ := h
            cases pairs with
            | nil => cases hpairs
            | cons pair pairs =>
                rw [List.map_cons, List.map_cons, hb, List.cons.injEq, Except.ok.injEq] at hpairs
                obtain ⟨rfl, hpairs⟩ := hpairs
                exact ⟨pairs, hpairs, rfl⟩

/-- A layout gives a grammar if all its blocks are closed and can be read. -/
theorem Layout.grammar_eq_ok_iff {l : Layout} {g : Grammar} : l.grammar = .ok g ↔
    l.unclosed = none ∧ ∃ pairs : List (String × Rule),
      l.closed.map Block.read = pairs.map .ok ∧ g = Grammar.ofPairs pairs := by
  obtain ⟨closed, unclosed⟩ := l
  have hblocks := @addBlocks_eq_ok_iff ∅ g closed
  cases ha : addBlocks ∅ closed with
  | error fault =>
      rw [ha] at hblocks
      simp only [Layout.grammar, ha, reduceCtorEq, false_iff] at hblocks ⊢
      exact fun h => hblocks h.2
  | ok next =>
      rw [ha] at hblocks
      cases unclosed with
      | some b => simp [Layout.grammar, ha]
      | none =>
          simp only [Layout.grammar, ha, true_and]
          exact hblocks

/-! ## Lines -/

/-- Whether a line is passed over: a comment, or a blank line outside blocks. -/
def skips (current : Option Block) (line : List Char) : Bool :=
  isComment (trim line) || (current.isNone && (trim line).isEmpty)

section

variable {current : Option Block} {n : Nat} {line : List Char} {more : List (List Char)}

theorem layout_skip (h : skips current line = true) :
    layout current n (line :: more) = layout current (n + 1) more := by
  rw [skips] at h
  rw [layout, if_pos h]

theorem layout_close (h : skips current line = false)
    (hclosed : (Block.resume current n (trim line)).isClosed = true) :
    layout current n (line :: more) =
      ⟨Block.resume current n (trim line) :: (layout none (n + 1) more).closed,
        (layout none (n + 1) more).unclosed⟩ := by
  rw [skips] at h
  rw [layout, if_neg (by simp only [h, Bool.false_eq_true, not_false_eq_true]), if_pos hclosed]

theorem layout_continue (h : skips current line = false)
    (hopen : (Block.resume current n (trim line)).isClosed = false) :
    layout current n (line :: more) =
      layout (some (Block.resume current n (trim line))) (n + 1) more := by
  rw [skips] at h
  rw [layout, if_neg (by simp only [h, Bool.false_eq_true, not_false_eq_true]),
    if_neg (by simp only [hopen, Bool.false_eq_true, not_false_eq_true])]

theorem not_mem_resume {c : Char} (hc : c ≠ ' ') (hcurrent : ∀ b ∈ current, c ∉ b.text)
    (hline : c ∉ line) : c ∉ (Block.resume current n (trim line)).text := by
  have htrim : c ∉ trim line := fun h => hline ((trim_sublist line).subset h)
  cases current with
  | none => exact htrim
  | some b =>
      have hopen := hcurrent b rfl
      simp [Block.resume, Block.extend, hopen, hc, htrim]

end

/-- The blocks of some lines and more lines are those of the first lines and then those of the rest,
which go on where the first lines stop. -/
theorem layout_append {current unclosed : Option Block} {n : Nat} {lines : List (List Char)}
    {closed : List Block} (h : layout current n lines = ⟨closed, unclosed⟩)
    (more : List (List Char)) :
    layout current n (lines ++ more) =
      ⟨closed ++ (layout unclosed (n + lines.length) more).closed,
        (layout unclosed (n + lines.length) more).unclosed⟩ := by
  induction lines generalizing current n closed with
  | nil =>
      cases h
      rfl
  | cons line lines ih =>
      rw [List.length_cons, Nat.add_comm lines.length, ← Nat.add_assoc, List.cons_append]
      cases hskip : skips current line with
      | true =>
          rw [layout_skip hskip] at h ⊢
          exact ih h
      | false =>
          cases hclosed : (Block.resume current n (trim line)).isClosed with
          | true =>
              rw [layout_close hskip hclosed, Layout.mk.injEq] at h
              obtain ⟨rfl, rfl⟩ := h
              rw [layout_close hskip hclosed, ih rfl]
              rfl
          | false =>
              rw [layout_continue hskip hclosed] at h ⊢
              exact ih h

/-- The block that is open goes on, and is the first to close. -/
theorem exists_closed_eq {b : Block} {n : Nat} {lines : List (List Char)}
    (h : (layout (some b) n lines).unclosed = none) :
    ∃ text rest, (layout (some b) n lines).closed = ⟨b.line, b.text ++ text⟩ :: rest := by
  induction lines generalizing b n with
  | nil => cases h
  | cons line lines ih =>
      cases hskip : skips (some b) line with
      | true =>
          rw [layout_skip hskip] at h ⊢
          exact ih h
      | false =>
          cases hclosed : (Block.resume (some b) n (trim line)).isClosed with
          | true =>
              rw [layout_close hskip hclosed]
              exact ⟨_, _, rfl⟩
          | false =>
              rw [layout_continue hskip hclosed] at h ⊢
              obtain ⟨text, rest, heq⟩ := ih h
              refine ⟨' ' :: trim line ++ text, rest, ?_⟩
              rw [heq]
              simp [Block.resume, Block.extend]

/-- The first block begins with the first line that is not passed over. -/
theorem exists_first_closed {n : Nat} {line : List Char} {more : List (List Char)}
    (hskip : skips none line = false) (h : (layout none n (line :: more)).unclosed = none) :
    ∃ text rest, (layout none n (line :: more)).closed = ⟨n, trim line ++ text⟩ :: rest := by
  cases hclosed : (Block.resume none n (trim line)).isClosed with
  | true =>
      rw [layout_close hskip hclosed]
      exact ⟨[], _, by rw [List.append_nil]; rfl⟩
  | false =>
      rw [layout_continue hskip hclosed] at h ⊢
      exact exists_closed_eq h

/-- Blocks hold nothing but what the lines hold, and spaces. -/
theorem not_mem_of_mem_closed {c : Char} (hc : c ≠ ' ') {lines : List (List Char)}
    (hlines : ∀ line ∈ lines, c ∉ line) {current : Option Block} {n : Nat}
    (hcurrent : ∀ b ∈ current, c ∉ b.text) {b : Block} (hb : b ∈ (layout current n lines).closed) :
    c ∉ b.text := by
  induction lines generalizing current n with
  | nil => cases hb
  | cons line more ih =>
      obtain ⟨hline, hmore⟩ := List.forall_mem_cons.1 hlines
      have hresume := not_mem_resume (n := n) hc hcurrent hline
      cases hskip : skips current line with
      | true =>
          rw [layout_skip hskip] at hb
          exact ih hmore hcurrent hb
      | false =>
          cases hclosed : (Block.resume current n (trim line)).isClosed with
          | true =>
              rw [layout_close hskip hclosed] at hb
              rcases List.mem_cons.1 hb with rfl | hb
              · exact hresume
              · exact ih hmore (by simp) hb
          | false =>
              rw [layout_continue hskip hclosed] at hb
              refine ih hmore ?_ hb
              intro b hb
              cases hb
              exact hresume

end Listing

theorem Grammar.ofListing_eq_ok_iff {source : String} {g : Grammar} :
    Grammar.ofListing source = .ok g ↔
      (Listing.layout none 1 (Text.lines source.toList)).unclosed = none ∧
        ∃ pairs : List (String × Rule),
          (Listing.layout none 1 (Text.lines source.toList)).closed.map Listing.Block.read =
            pairs.map .ok ∧ g = .ofPairs pairs :=
  Listing.Layout.grammar_eq_ok_iff

end GrammarSampler

import GrammarSampler.Proofs.Listing.Passages
import Mathlib.Data.List.Forall2

/-!
# The format of listings

Which listings are read, and what is told of the others. A listing is read if all its passages close
and each is a rule with a body that can be read. Otherwise the earliest passage that is not so is
told, by the number of its first line.
-/

namespace GrammarSampler

namespace Listing

/-! ## Blocks that cannot be read -/

/-- A text is a rule in at most one way. -/
theorem IsRule.unique {key body other rest text : List Char} (h : IsRule key body text)
    (h' : IsRule other rest text) : key = other ∧ body = rest := by
  have hsplit := (Block.split?_eq_some_iff (b := ⟨0, text⟩)).2 h
  rw [Block.split?_eq_some_iff.2 h', Option.some.injEq, Prod.mk.injEq] at hsplit
  exact ⟨hsplit.1.symm, hsplit.2.symm⟩

namespace Passage

variable {p : Passage} {pair : String × Rule} {fault : Fault} {cause : Cause}

/-- Whether a passage is a rule of a symbol. -/
def Reads (p : Passage) (pair : String × Rule) : Prop :=
  ∃ body, IsRule pair.1.toList body p.text ∧
    Rule.ofBody p.line (String.ofList body) = .ok pair.2

/-- Why a passage that closes is not a rule: it does not have the form of one, or it has and its
body cannot be read. -/
inductive Fails (p : Passage) : Cause → Prop
  | form (hform : ∀ key body, ¬ IsRule key body p.text) : Fails p (.notARule p.text)
  | body {key body : List Char} {cause : Cause} (hform : IsRule key body p.text)
      (hbody : Rule.ofBody p.line (String.ofList body) = .error (cause.fault p.line)) :
      Fails p cause

theorem read_block_eq_ok_iff : p.block.read = .ok pair ↔ p.Reads pair := by
  obtain ⟨symbol, ⟨list⟩⟩ := pair
  refine Block.read_eq_ok_iff.trans (exists_congr fun body => and_congr_right fun _ => ?_)
  rw [Rule.ofBody, String.toList_ofList, rule]
  cases tokens body <;> simp

theorem read_block_eq_error_iff :
    p.block.read = .error fault ↔ ∃ cause, p.Fails cause ∧ fault = cause.fault p.line := by
  have hsplit := fun key body => @Block.split?_eq_some_iff p.block key body
  rw [Block.read]
  cases hs : p.block.split? with
  | none =>
      have hform : ∀ key body, ¬ IsRule key body p.text := by
        intro key body hform
        rw [(hsplit key body).2 hform] at hs
        cases hs
      constructor
      · intro h
        cases h
        exact ⟨_, .form hform, rfl⟩
      · intro h
        obtain ⟨cause, hfails, rfl⟩ := h
        cases hfails with
        | form => rfl
        | body hrule => exact absurd hrule (hform _ _)
  | some split =>
      obtain ⟨key, body⟩ := split
      have hrule : IsRule key body p.text := (hsplit key body).1 hs
      have hbody : rule p.line body = Rule.ofBody p.line (String.ofList body) := by
        rw [Rule.ofBody, String.toList_ofList]
      constructor
      · intro h
        cases ht : tokens body with
        | ok list => simp [rule, ht, Except.map] at h
        | error cause =>
            simp only [block, rule, ht, Except.map, Except.error.injEq] at h
            refine ⟨cause, .body hrule ?_, h.symm⟩
            rw [← hbody, rule, ht]
      · intro h
        obtain ⟨cause, hfails, rfl⟩ := h
        cases hfails with
        | form hform => exact absurd hrule (hform key body)
        | body hother hfails =>
            obtain ⟨-, rfl⟩ := hrule.unique hother
            rw [← hbody] at hfails
            simp [block, hfails, Except.map]

theorem map_read_eq_iff {passages : List Passage} {pairs : List (String × Rule)} :
    (passages.map block).map Block.read = pairs.map .ok ↔ List.Forall₂ Reads passages pairs := by
  rw [List.map_map, ← List.forall₂_eq_eq_eq, List.forall₂_map_left_iff, List.forall₂_map_right_iff]
  simp only [Function.comp_apply, read_block_eq_ok_iff]

theorem forall_read_iff {passages : List Passage} :
    (∀ b ∈ passages.map block, ∃ pair, b.read = .ok pair) ↔
      ∀ p ∈ passages, ∃ pair, p.Reads pair := by
  simp only [List.forall_mem_map, read_block_eq_ok_iff]

/-- The first block that cannot be read is that of the first passage that fails. -/
theorem exists_first_failure_iff {passages : List Passage} :
    (∃ good bad more, passages.map block = good ++ bad :: more ∧
      (∀ b ∈ good, ∃ pair, b.read = .ok pair) ∧ bad.read = .error fault) ↔
    ∃ good bad more cause, passages = good ++ bad :: more ∧
      (∀ p ∈ good, ∃ pair, p.Reads pair) ∧ bad.Fails cause ∧ fault = cause.fault bad.line := by
  apply Iff.intro
  · intro h
    obtain ⟨_, bad, _, hsplit, hgood, hbad⟩ := h
    obtain ⟨good, rest, rfl, rfl, hrest⟩ := List.map_eq_append_iff.1 hsplit
    obtain ⟨p, more, rfl, rfl, -⟩ := List.map_eq_cons_iff.1 hrest
    obtain ⟨cause, hfails, hfault⟩ := read_block_eq_error_iff.1 hbad
    exact ⟨good, p, more, cause, rfl, forall_read_iff.1 hgood, hfails, hfault⟩
  · intro h
    obtain ⟨good, bad, more, cause, rfl, hgood, hfails, hfault⟩ := h
    refine ⟨good.map block, bad.block, more.map block, by simp, forall_read_iff.2 hgood, ?_⟩
    exact read_block_eq_error_iff.2 ⟨cause, hfails, hfault⟩

end Passage

/-! ## Layouts that cannot be read -/

theorem exists_addBlocks_eq_ok_iff {g : Grammar} {blocks : List Block} :
    (∃ next, addBlocks g blocks = .ok next) ↔ ∀ b ∈ blocks, ∃ pair, b.read = .ok pair := by
  induction blocks generalizing g with
  | nil => simp [addBlocks]
  | cons b more ih =>
      rw [List.forall_mem_cons, addBlocks]
      cases hb : b.read with
      | error fault => simp
      | ok pair => simp [ih]

/-- The first block that cannot be read is told. -/
theorem addBlocks_eq_error_iff {g : Grammar} {blocks : List Block} {fault : Fault} :
    addBlocks g blocks = .error fault ↔ ∃ good bad more, blocks = good ++ bad :: more ∧
      (∀ b ∈ good, ∃ pair, b.read = .ok pair) ∧ bad.read = .error fault := by
  apply Iff.intro
  · intro h
    induction blocks generalizing g with
    | nil => cases h
    | cons b blocks ih =>
        rw [addBlocks] at h
        cases hb : b.read with
        | error other =>
            rw [hb] at h
            cases h
            exact ⟨[], b, blocks, rfl, by simp, hb⟩
        | ok pair =>
            rw [hb] at h
            obtain ⟨good, bad, more, rfl, hgood, hbad⟩ := ih h
            exact ⟨b :: good, bad, more, rfl, List.forall_mem_cons.2 ⟨⟨pair, hb⟩, hgood⟩, hbad⟩
  · intro h
    obtain ⟨good, bad, more, rfl, hgood, hbad⟩ := h
    induction good generalizing g with
    | nil => rw [List.nil_append, addBlocks, hbad]
    | cons b good ih =>
        obtain ⟨⟨pair, hb⟩, hgood⟩ := List.forall_mem_cons.1 hgood
        rw [List.cons_append, addBlocks, hb]
        exact ih hgood

/-- The fault of a layout is that of its first block that cannot be read, or else that of the block
that does not close. -/
theorem Layout.grammar_eq_error_iff {l : Layout} {fault : Fault} : l.grammar = .error fault ↔
    (∃ good bad more, l.closed = good ++ bad :: more ∧
      (∀ b ∈ good, ∃ pair, b.read = .ok pair) ∧ bad.read = .error fault) ∨
    ((∀ b ∈ l.closed, ∃ pair, b.read = .ok pair) ∧
      ∃ b, l.unclosed = some b ∧ fault = Cause.unclosed.fault b.line) := by
  obtain ⟨closed, unclosed⟩ := l
  rw [Layout.grammar, ← @addBlocks_eq_error_iff ∅ closed, ← @exists_addBlocks_eq_ok_iff ∅ closed]
  cases addBlocks ∅ closed with
  | error other => simp
  | ok g => cases unclosed <;> simp [eq_comm]

end Listing

namespace Grammar

open Listing

/-- A listing is read if every block closes and is a rule whose body can be read, and the grammar
then has just the rules of the blocks. Otherwise the line is told on which the earliest block begins
that is not so. -/
theorem ofListing_format (source : String) :
    (∃ closed unclosed, Passages (kept 1 (Text.lines source.toList)) closed unclosed) ∧
    ∀ closed unclosed, Passages (kept 1 (Text.lines source.toList)) closed unclosed →
      (∀ g, ofListing source = .ok g ↔
        unclosed = none ∧ ∃ pairs, List.Forall₂ Passage.Reads closed pairs ∧ g.Collects pairs) ∧
      ∀ fault, ofListing source = .error fault ↔
        (∃ good bad more cause, closed = good ++ bad :: more ∧
          (∀ p ∈ good, ∃ pair, p.Reads pair) ∧ bad.Fails cause ∧
          fault = .parse bad.line cause.message) ∨
        ((∀ p ∈ closed, ∃ pair, p.Reads pair) ∧
          ∃ p, unclosed = some p ∧ fault = .parse p.line Cause.unclosed.message) := by
  obtain ⟨closed, unclosed, hpassages, hlayout⟩ :=
    @exists_passages none (by simp) 1 (Text.lines source.toList)
  refine ⟨⟨closed, unclosed, hpassages⟩, fun other last hother => ?_⟩
  obtain ⟨rfl, rfl⟩ := hpassages.unique hother
  rw [Option.map_none] at hlayout
  constructor
  · intro g
    rw [ofListing_eq_ok_iff, hlayout, Option.map_eq_none_iff]
    simp only [Passage.map_read_eq_iff, collects_iff]
  · intro fault
    rw [ofListing, hlayout, Layout.grammar_eq_error_iff, Passage.exists_first_failure_iff,
      Passage.forall_read_iff]
    refine or_congr_right (and_congr_right fun _ => ?_)
    cases unclosed with
    | none => simp
    | some p => simp [Passage.block, Cause.fault]

/-- A rule over two lines with a comment between them, and one that does not close. -/
def splitListing : String := "<a> ::=\n# none\n [x]\n\n<b> ::= ["

def splitPassage : Passage := ⟨⟨1, "<a> ::=".toList⟩, [⟨3, "[x]".toList⟩]⟩

def openPassage : Passage := ⟨⟨5, "<b> ::= [".toList⟩, []⟩

theorem passages_splitListing :
    Passages (kept 1 (Text.lines splitListing.toList)) [splitPassage] (some openPassage) := by
  have hkept : kept 1 (Text.lines splitListing.toList) =
      splitPassage.lines ++ ⟨4, []⟩ :: openPassage.lines := by
    decide +kernel
  have hclosed : splitPassage.Closed :=
    ⟨by decide, [splitPassage.first], _, rfl, by decide, by decide⟩
  rw [hkept]
  exact .closed hclosed (.blank rfl (.unclosed ⟨by decide, by decide⟩))

theorem ofListing_format_split :
    Passages (kept 1 (Text.lines splitListing.toList)) [splitPassage] (some openPassage) ∧
      splitPassage.Reads ("<a>", ⟨["x"]⟩) ∧
      ofListing splitListing = .error (.parse 5 Cause.unclosed.message) := by
  have hreads : splitPassage.Reads ("<a>", ⟨["x"]⟩) :=
    Passage.read_block_eq_ok_iff.1 (by decide +kernel)
  obtain ⟨-, hformat⟩ := ofListing_format splitListing
  obtain ⟨-, herror⟩ := hformat _ _ passages_splitListing
  refine ⟨passages_splitListing, hreads, (herror _).2 (.inr ⟨?_, openPassage, rfl, rfl⟩)⟩
  exact List.forall_mem_singleton.2 ⟨_, hreads⟩

end Grammar

end GrammarSampler

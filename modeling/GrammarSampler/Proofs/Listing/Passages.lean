import GrammarSampler.Proofs.Listing.Blocks

/-!
# How lines fall into blocks

The lines of a listing without its comments, as passages from one line that is not blank to the
first that ends with a closing square bracket. Every listing falls into passages in just one way,
and its layout is what they spell.
-/

namespace GrammarSampler.Listing

open Text

/-! ## Lines -/

/-- A line without blank ends, and its number. -/
structure Line where
  number : Nat
  text : List Char
  deriving DecidableEq, Repr

def Line.Closes (l : Line) : Prop := l.text.getLast? = some ']'

instance (l : Line) : Decidable l.Closes :=
  inferInstanceAs (Decidable (l.text.getLast? = some ']'))

/-- The lines that are no comments, where the first of `lines` has number `n`. -/
def kept (n : Nat) (lines : List (List Char)) : List Line :=
  ((lines.zipIdx n).map fun (line, number) => (⟨number, trim line⟩ : Line)).filter
    fun l => !isComment l.text

theorem kept_cons_of_comment {n : Nat} {line : List Char} {more : List (List Char)}
    (h : isComment (trim line) = true) : kept n (line :: more) = kept (n + 1) more := by
  simp [kept, h]

theorem kept_cons {n : Nat} {line : List Char} {more : List (List Char)}
    (h : isComment (trim line) = false) :
    kept n (line :: more) = ⟨n, trim line⟩ :: kept (n + 1) more := by
  simp [kept, h]

/-! ## Passages -/

/-- The lines of one block, of which there is at least one. -/
structure Passage where
  first : Line
  more : List Line
  deriving DecidableEq, Repr

namespace Passage

variable {p q : Passage} {l : Line}

def lines (p : Passage) : List Line := p.first :: p.more

/-- The number of the first line. -/
def line (p : Passage) : Nat := p.first.number

def text (p : Passage) : List Char := [' '].intercalate (p.lines.map (·.text))

def block (p : Passage) : Block := ⟨p.line, p.text⟩

/-- Whether a passage begins as a block does and goes on to the first line that closes it. -/
def Closed (p : Passage) : Prop :=
  p.first.text ≠ [] ∧
    ∃ before last, p.lines = before ++ [last] ∧ (∀ l ∈ before, ¬ l.Closes) ∧ last.Closes

/-- Whether a passage begins as a block does, and no line closes it. -/
def Open (p : Passage) : Prop := p.first.text ≠ [] ∧ ∀ l ∈ p.lines, ¬ l.Closes

end Passage

/-- Whether some lines fall into closed passages, with blank lines between them, and at the end
perhaps one that does not close. -/
inductive Passages : List Line → List Passage → Option Passage → Prop
  | nil : Passages [] [] none
  | blank {line : Line} {more : List Line} {closed : List Passage} {unclosed : Option Passage}
      (hblank : line.text = []) (hmore : Passages more closed unclosed) :
      Passages (line :: more) closed unclosed
  | closed {p : Passage} {more : List Line} {closed : List Passage} {unclosed : Option Passage}
      (hp : p.Closed) (hmore : Passages more closed unclosed) :
      Passages (p.lines ++ more) (p :: closed) unclosed
  | unclosed {p : Passage} (hp : p.Open) : Passages p.lines [] (some p)

/-! ## One way only -/

namespace Passage

variable {p q : Passage} {more rest : List Line}

theorem eq_of_lines_eq (h : p.lines = q.lines) : p = q := by
  obtain ⟨hfirst, hmore⟩ := List.cons.inj h
  cases p
  cases q
  congr

/-- The first line that closes cuts a list of lines in one place only. -/
theorem eq_of_first_closes {before other : List Line} {last final : Line}
    (h : before ++ last :: more = other ++ final :: rest) (hbefore : ∀ l ∈ before, ¬ l.Closes)
    (hlast : last.Closes) (hother : ∀ l ∈ other, ¬ l.Closes) (hfinal : final.Closes) :
    before = other ∧ last = final ∧ more = rest := by
  rcases List.append_eq_append_iff.1 h with ⟨gap, rfl, hgap⟩ | ⟨gap, rfl, hgap⟩
  · cases gap with
    | nil => simpa using hgap
    | cons l gap =>
        obtain ⟨rfl, -⟩ := List.cons.inj hgap
        exact absurd hlast (hother _ (by simp))
  · cases gap with
    | nil => simpa [eq_comm] using hgap
    | cons l gap =>
        obtain ⟨rfl, -⟩ := List.cons.inj hgap
        exact absurd hfinal (hbefore _ (by simp))

theorem Closed.eq_of_append_eq (hp : p.Closed) (hq : q.Closed)
    (h : p.lines ++ more = q.lines ++ rest) : p = q ∧ more = rest := by
  obtain ⟨-, before, last, hbefore, hopen, hlast⟩ := hp
  obtain ⟨-, other, final, hother, hstill, hfinal⟩ := hq
  rw [hbefore, hother, List.append_assoc, List.append_assoc] at h
  obtain ⟨rfl, rfl, rfl⟩ := eq_of_first_closes h hopen hlast hstill hfinal
  exact ⟨eq_of_lines_eq (hbefore.trans hother.symm), rfl⟩

theorem Closed.append_ne_open (hp : p.Closed) (hq : q.Open) : p.lines ++ more ≠ q.lines := by
  intro h
  obtain ⟨-, before, last, hbefore, -, hlast⟩ := hp
  refine hq.2 last ?_ hlast
  rw [← h, hbefore]
  simp

end Passage

/-- Lines fall into passages in at most one way. -/
theorem Passages.unique {lines : List Line} {closed other : List Passage}
    {unclosed last : Option Passage} (h : Passages lines closed unclosed)
    (h' : Passages lines other last) : closed = other ∧ unclosed = last := by
  induction h generalizing other last with
  | nil =>
      cases h'
      exact ⟨rfl, rfl⟩
  | blank hblank hmore ih =>
      cases h' with
      | blank _ hrest => exact ih hrest
      | closed hq => exact absurd hblank hq.1
      | unclosed hq => exact absurd hblank hq.1
  | @closed p more closed unclosed hp hmore ih =>
      generalize hlines : p.lines ++ more = lines at h'
      cases h' with
      | nil => cases hlines
      | blank hblank =>
          obtain ⟨rfl, -⟩ := List.cons.inj hlines
          exact absurd hblank hp.1
      | closed hq hrest =>
          obtain ⟨rfl, rfl⟩ := hp.eq_of_append_eq hq hlines
          obtain ⟨rfl, rfl⟩ := ih hrest
          exact ⟨rfl, rfl⟩
      | unclosed hq => exact absurd hlines (hp.append_ne_open hq)
  | @unclosed p hp =>
      generalize hlines : p.lines = lines at h'
      cases h' with
      | nil => cases hlines
      | blank hblank =>
          obtain ⟨rfl, -⟩ := List.cons.inj hlines
          exact absurd hblank hp.1
      | closed hq => exact absurd hlines.symm (hq.append_ne_open hp)
      | unclosed hq => exact ⟨rfl, congrArg some (Passage.eq_of_lines_eq hlines)⟩

/-! ## The layout -/

theorem intercalate_concat {α : Type} {separator : List α} (first : List α) (more : List (List α))
    (last : List α) : separator.intercalate (first :: more ++ [last]) =
      separator.intercalate (first :: more) ++ separator ++ last := by
  induction more generalizing first with
  | nil => simp [List.intercalate_cons_cons]
  | cons next more ih =>
      have hmore := ih next
      simp only [List.cons_append, List.intercalate_cons_cons] at hmore ⊢
      rw [hmore]
      simp only [List.append_assoc]

namespace Passage

variable {current : Option Passage} {l : Line}

/-- The passage that a line which is no comment begins or continues. -/
def resume (current : Option Passage) (l : Line) : Passage :=
  match current with
  | none => ⟨l, []⟩
  | some p => ⟨p.first, p.more ++ [l]⟩

/-- The lines of a passage that is being read. -/
def pending (current : Option Passage) : List Line := (current.map lines).getD []

theorem lines_resume : (resume current l).lines = pending current ++ [l] := by
  cases current <;> rfl

theorem block_resume :
    (resume current l).block = Block.resume (current.map block) l.number l.text := by
  cases current with
  | none => simp [resume, block, Block.resume, line, text, lines]
  | some p =>
      have htext := @intercalate_concat Char [' '] p.first.text (p.more.map (·.text)) l.text
      rw [List.append_assoc, List.cons_append] at htext
      simp [resume, block, Block.resume, Block.extend, line, text, lines, htext]

theorem first_resume_ne (hcurrent : ∀ p ∈ current, p.Open) (hl : current = none → l.text ≠ []) :
    (resume current l).first.text ≠ [] := by
  cases current with
  | none => exact hl rfl
  | some p => exact (hcurrent p rfl).1

theorem not_closes_of_mem_pending (hcurrent : ∀ p ∈ current, p.Open) :
    ∀ l ∈ pending current, ¬ l.Closes := by
  cases current with
  | none => simp [pending]
  | some p => exact (hcurrent p rfl).2

theorem closed_resume (hcurrent : ∀ p ∈ current, p.Open) (hl : current = none → l.text ≠ [])
    (hcloses : l.Closes) : (resume current l).Closed :=
  ⟨first_resume_ne hcurrent hl, pending current, l, lines_resume,
    not_closes_of_mem_pending hcurrent, hcloses⟩

theorem open_resume (hcurrent : ∀ p ∈ current, p.Open) (hl : current = none → l.text ≠ [])
    (hcloses : ¬ l.Closes) : (resume current l).Open := by
  refine ⟨first_resume_ne hcurrent hl, ?_⟩
  rw [lines_resume]
  exact List.forall_mem_append.2
    ⟨not_closes_of_mem_pending hcurrent, List.forall_mem_singleton.2 hcloses⟩

theorem isClosed_block_resume : (resume current l).block.isClosed = true ↔ l.Closes := by
  rw [Block.isClosed, beq_iff_eq, Line.Closes, block_resume]
  cases current with
  | none => rfl
  | some p =>
      rw [Option.map_some, Block.resume, Block.extend, List.getLast?_append, List.getLast?_cons]
      cases l.text.getLast? <;> simp

end Passage

open Passage

/-- Every listing falls into passages, and its blocks are theirs. The lines before line `n` are
those of the passage that is being read. -/
theorem exists_passages {current : Option Passage} (hcurrent : ∀ p ∈ current, p.Open) (n : Nat)
    (lines : List (List Char)) :
    ∃ closed unclosed, Passages (pending current ++ kept n lines) closed unclosed ∧
      layout (current.map block) n lines = ⟨closed.map block, unclosed.map block⟩ := by
  induction lines generalizing current n with
  | nil =>
      cases current with
      | none => exact ⟨[], none, .nil, rfl⟩
      | some p =>
          refine ⟨[], some p, ?_, rfl⟩
          simpa [pending, kept] using Passages.unclosed (hcurrent p rfl)
  | cons line more ih =>
      cases hcomment : isComment (trim line) with
      | true =>
          have hskip : skips (current.map block) line = true := by simp [skips, hcomment]
          rw [kept_cons_of_comment hcomment, layout_skip hskip]
          exact ih hcurrent (n + 1)
      | false =>
          rw [kept_cons hcomment]
          cases hskip : skips (current.map block) line with
          | true =>
              obtain ⟨rfl, hblank⟩ : current = none ∧ trim line = [] := by
                simpa [skips, hcomment] using hskip
              obtain ⟨closed, unclosed, hpassages, hlayout⟩ := ih hcurrent (n + 1)
              exact ⟨closed, unclosed, .blank hblank hpassages, (layout_skip hskip).trans hlayout⟩
          | false =>
              have hl : current = none → trim line ≠ [] := by
                rintro rfl hblank
                simp [skips, hblank] at hskip
              have hblock := @block_resume current ⟨n, trim line⟩
              have hcloses_iff := @isClosed_block_resume current ⟨n, trim line⟩
              rw [hblock] at hcloses_iff
              have hlines : pending current ++ ⟨n, trim line⟩ :: kept (n + 1) more =
                  (resume current ⟨n, trim line⟩).lines ++ kept (n + 1) more := by
                rw [lines_resume, List.append_assoc, List.singleton_append]
              rw [hlines]
              by_cases hcloses : Line.Closes ⟨n, trim line⟩
              · obtain ⟨closed, unclosed, hpassages, hlayout⟩ := @ih none (by simp) (n + 1)
                refine ⟨resume current ⟨n, trim line⟩ :: closed, unclosed,
                  .closed (closed_resume hcurrent hl hcloses) hpassages, ?_⟩
                rw [Option.map_none] at hlayout
                rw [layout_close hskip (hcloses_iff.2 hcloses), List.map_cons, hblock, hlayout]
              · have hopen := Bool.eq_false_iff.2 (hcloses_iff.not.2 hcloses)
                rw [layout_continue hskip hopen, ← hblock]
                refine @ih (some (resume current ⟨n, trim line⟩)) ?_ (n + 1)
                intro p hp
                cases hp
                exact open_resume hcurrent hl hcloses

end GrammarSampler.Listing

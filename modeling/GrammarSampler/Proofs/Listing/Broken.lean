import GrammarSampler.Proofs.Listing.RoundTrip

/-!
# Rules over several lines

A written rule may break at certain places, its lines may be indented, and blank lines and comments
may stand between them. However it is laid out in this way, its lines are one block, which is read
as the rule.
-/

namespace GrammarSampler

namespace Listing

open Text

/-! ## Layouts of written rules -/

/-- A part of a written rule, after which its line may break, and whether a space follows if the
line goes on. -/
structure Chunk where
  text : List Char
  spaced : Bool
  deriving DecidableEq, Repr

def Chunk.glue (p : Chunk) : List Char := if p.spaced then [' '] else []

/-- The parts of a body and of the bracket that closes it. -/
def bodyChunks : List String → List Chunk
  | [] => [⟨[']'], false⟩]
  | [token] => [⟨writeToken token, false⟩, ⟨[']'], false⟩]
  | token :: more => ⟨writeToken token ++ [','], true⟩ :: bodyChunks more

/-- The parts of a written rule. Its lines may break around the sign, after the opening bracket,
after a comma between tokens and before the closing bracket. -/
def chunks (symbol : String) (rule : Rule) : List Chunk :=
  ⟨symbol.toList, true⟩ :: ⟨[':', ':', '='], true⟩ :: ⟨['['], false⟩ :: bodyChunks rule.tokens

/-- Whether lines spell the parts in turn, each on the line of the one before or on the next. -/
inductive Broken : List Chunk → List (List Char) → Prop
  | last (p : Chunk) : Broken [p] [p.text]
  | same {p : Chunk} {more : List Chunk} {line : List Char} {lines : List (List Char)}
      (h : Broken more (line :: lines)) : Broken (p :: more) ((p.text ++ p.glue ++ line) :: lines)
  | next {p : Chunk} {more : List Chunk} {lines : List (List Char)} (h : Broken more lines) :
      Broken (p :: more) (p.text :: lines)

/-- Whether a line is blank or a comment. -/
def IsIdle (line : List Char) : Prop := trim line = [] ∨ isComment (trim line) = true

/-- Whether some lines are the plain ones in turn, with blanks at their ends, among idle lines. -/
inductive Spaced : List (List Char) → List (List Char) → Prop
  | nil : Spaced [] []
  | idle {line : List Char} {plain lines : List (List Char)} (hidle : IsIdle line)
      (h : Spaced plain lines) : Spaced plain (line :: lines)
  | padded {before line after : List Char} {plain lines : List (List Char)}
      (hbefore : ∀ c ∈ before, isBlank c = true) (hafter : ∀ c ∈ after, isBlank c = true)
      (h : Spaced plain lines) : Spaced (line :: plain) ((before ++ line ++ after) :: lines)

/-! ## Lines of one block -/

/-- Whether a line has no blank ends and is neither blank nor a comment. -/
structure Solid (line : List Char) : Prop where
  ne_nil : line ≠ []
  first : ∀ c ∈ line.head?, isBlank c = false ∧ c ≠ '#'
  last : ∀ c ∈ line.getLast?, isBlank c = false

/-- Whether some lines make one block: the last closes it, and no other. -/
inductive OneBlock : List (List Char) → Prop
  | last {line : List Char} (hsolid : Solid line) (hcloses : line.getLast? = some ']') :
      OneBlock [line]
  | cons {line : List Char} {more : List (List Char)} (hsolid : Solid line)
      (hopen : line.getLast? ≠ some ']') (h : OneBlock more) : OneBlock (line :: more)

/-- Whether a text is some pieces in turn, with blanks between them. -/
inductive Joined : List (List Char) → List Char → Prop
  | single (piece : List Char) : Joined [piece] piece
  | cons {piece gap text : List Char} {more : List (List Char)}
      (hgap : ∀ c ∈ gap, isBlank c = true) (h : Joined more text) :
      Joined (piece :: more) (piece ++ gap ++ text)

variable {symbol : String} {rule : Rule} {token : String} {line : List Char} {ps : List Chunk}
  {plain lines : List (List Char)}

theorem Solid.of_ends {c d : Char} {inner : List Char} (hc : isBlank c = false) (hne : c ≠ '#')
    (hd : isBlank d = false) : Solid (c :: inner ++ [d]) where
  ne_nil := by simp
  first := by
    rintro _ ⟨⟩
    exact ⟨hc, hne⟩
  last := by
    rw [List.getLast?_concat]
    rintro _ ⟨⟩
    exact hd

theorem getLast?_append_of_solid (h : Solid line) (before : List Char) :
    (before ++ line).getLast? = line.getLast? :=
  List.getLast?_append_of_ne_nil before h.ne_nil

theorem Solid.singleton {c : Char} (hc : isBlank c = false) (hne : c ≠ '#') : Solid [c] where
  ne_nil := by simp
  first := by
    rintro _ ⟨⟩
    exact ⟨hc, hne⟩
  last := by
    rintro _ ⟨⟩
    exact hc

theorem Solid.append {more : List Char} (h : Solid line) (hmore : Solid more) (gap : List Char) :
    Solid (line ++ gap ++ more) where
  ne_nil := by simp [h.ne_nil]
  first := by
    obtain ⟨c, rest, rfl⟩ := List.exists_cons_of_ne_nil h.ne_nil
    exact h.first
  last := by
    rw [getLast?_append_of_solid hmore]
    exact hmore.last

theorem Solid.trim_padded (h : Solid line) {before after : List Char}
    (hbefore : ∀ c ∈ before, isBlank c = true) (hafter : ∀ c ∈ after, isBlank c = true) :
    trim (before ++ line ++ after) = line :=
  Text.trim_padded hbefore hafter h.ne_nil (fun c hc => (h.first c hc).1) h.last

theorem Solid.skips_eq_false (h : Solid line) {padded : List Char} (hpadded : trim padded = line)
    (current : Option Block) : skips current padded = false := by
  obtain ⟨c, rest, rfl⟩ := List.exists_cons_of_ne_nil h.ne_nil
  have hcomment : isComment (c :: rest) = false := by simpa [isComment] using (h.first c rfl).2
  rw [skips, hpadded, hcomment]
  simp

/-! ## Parts on lines -/

theorem Chunk.isBlank_glue (p : Chunk) : ∀ c ∈ p.glue, isBlank c = true := by
  unfold glue
  split
  · exact List.forall_mem_singleton.2 rfl
  · exact List.forall_mem_nil _

theorem Broken.map_text_ne_nil (h : Broken ps lines) : ps.map Chunk.text ≠ [] := by
  cases h <;> exact List.cons_ne_nil _ _

theorem OneBlock.of_cons {more : List (List Char)} (h : OneBlock (line :: more)) (hne : more ≠ []) :
    Solid line ∧ line.getLast? ≠ some ']' ∧ OneBlock more := by
  cases h with
  | last => exact absurd rfl hne
  | cons hsolid hopen hmore => exact ⟨hsolid, hopen, hmore⟩

theorem Broken.oneBlock (h : Broken ps lines) (hps : OneBlock (ps.map Chunk.text)) :
    OneBlock lines := by
  induction h with
  | last p => exact hps
  | same h ih =>
      obtain ⟨hsolid, -, hmore⟩ := OneBlock.of_cons hps h.map_text_ne_nil
      cases ih hmore with
      | last hline hcloses =>
          refine .last (hsolid.append hline _) ?_
          rwa [getLast?_append_of_solid hline]
      | cons hline hopen hlines =>
          refine .cons (hsolid.append hline _) ?_ hlines
          rwa [getLast?_append_of_solid hline]
  | next h ih =>
      obtain ⟨hsolid, hopen, hmore⟩ := OneBlock.of_cons hps h.map_text_ne_nil
      exact .cons hsolid hopen (ih hmore)

/-- What the lines spell, the parts spell, since lines break between parts only. -/
theorem Broken.joined {text : List Char} (h : Broken ps lines) (hjoined : Joined lines text) :
    Joined (ps.map Chunk.text) text := by
  induction h generalizing text with
  | last p => exact hjoined
  | @same p more line lines h ih =>
      cases hjoined with
      | single => exact .cons p.isBlank_glue (ih (.single line))
      | @cons _ gap text _ hgap hlines =>
          have hmore := ih (@Joined.cons line _ _ _ hgap hlines)
          have hspell := @Joined.cons p.text _ _ _ p.isBlank_glue hmore
          rw [← List.append_assoc, ← List.append_assoc] at hspell
          exact hspell
  | next h ih =>
      cases hjoined with
      | single => cases h
      | cons hgap hlines => exact .cons hgap (ih hlines)

/-! ## The block of a rule -/

section

variable {current : Option Block} {b : Block} {n : Nat} {padded : List Char}

theorem layout_comment (h : isComment (trim line) = true) :
    layout current n (line :: lines) = layout current (n + 1) lines :=
  layout_skip (by rw [skips, h, Bool.true_or])

theorem layout_blank (h : trim line = []) :
    layout none n (line :: lines) = layout none (n + 1) lines :=
  layout_skip (by rw [skips, h]; rfl)

/-- A blank line within a block is not passed over, and adds a blank to the block. -/
theorem layout_blank_within (h : trim line = []) :
    layout (some b) n (line :: lines) = layout (some (b.extend [])) (n + 1) lines := by
  have hopen : (Block.resume (some b) n (trim line)).isClosed = false := by
    simp [Block.resume, Block.extend, Block.isClosed, h]
  rw [layout_continue (by rw [skips, h]; rfl) hopen, h]
  rfl

theorem Block.isClosed_resume (h : Solid line) :
    (Block.resume current n line).isClosed = (line.getLast? == some ']') := by
  cases current with
  | none => rfl
  | some b =>
      rw [Block.resume, Block.extend, Block.isClosed, List.append_cons, getLast?_append_of_solid h]

theorem layout_solid_close (h : Solid line) (hpadded : trim padded = line)
    (hcloses : line.getLast? = some ']') : layout current n (padded :: lines) =
      ⟨Block.resume current n line :: (layout none (n + 1) lines).closed,
        (layout none (n + 1) lines).unclosed⟩ := by
  have hclosed : (Block.resume current n line).isClosed = true := by
    rw [Block.isClosed_resume h, hcloses, beq_self_eq_true]
  rw [← hpadded] at hclosed
  rw [layout_close (h.skips_eq_false hpadded current) hclosed, hpadded]

theorem layout_solid_continue (h : Solid line) (hpadded : trim padded = line)
    (hlast : line.getLast? ≠ some ']') : layout current n (padded :: lines) =
      layout (some (Block.resume current n line)) (n + 1) lines := by
  have hopen : (Block.resume current n line).isClosed = false := by
    rw [Block.isClosed_resume h, beq_eq_false_iff_ne]
    exact hlast
  rw [← hpadded] at hopen
  rw [layout_continue (h.skips_eq_false hpadded current) hopen, hpadded]

theorem layout_idle (h : Spaced [] lines) : layout none n lines = ⟨[], none⟩ := by
  generalize hplain : [] = plain at h
  induction h generalizing n with
  | nil => rfl
  | idle hidle h ih =>
      rcases hidle with hblank | hcomment
      · rw [layout_blank hblank, ih hplain]
      · rw [layout_comment hcomment, ih hplain]
  | padded => cases hplain

theorem Block.extend_resume (text more : List Char) :
    (Block.resume current n text).extend more = Block.resume current n (text ++ ' ' :: more) := by
  cases current <;> simp [Block.resume, Block.extend]

/-- The lines of one block make it, or end the one that they go on with. -/
theorem exists_layout_eq (hplain : OneBlock plain) (h : Spaced plain lines) :
    ∃ m gap text, (∀ c ∈ gap, isBlank c = true) ∧ (current = none → gap = []) ∧
      Joined plain text ∧
      layout current n lines = ⟨[Block.resume current m (gap ++ text)], none⟩ := by
  have hspace : isBlank ' ' = true := by decide
  induction h generalizing current n with
  | nil => cases hplain
  | idle hidle h ih =>
      rcases hidle with hblank | hcomment
      · cases current with
        | none =>
            rw [layout_blank hblank]
            exact ih hplain
        | some b =>
            obtain ⟨m, gap, text, hgap, -, hjoined, hlayout⟩ :=
              @ih (some (b.extend [])) (n + 1) hplain
            refine ⟨n, ' ' :: gap, text, List.forall_mem_cons.2 ⟨hspace, hgap⟩,
              (absurd · (Option.some_ne_none b)), hjoined, ?_⟩
            rw [layout_blank_within hblank, hlayout]
            simp [Block.resume, Block.extend]
      · rw [layout_comment hcomment]
        exact ih hplain
  | @padded before line after more lines hbefore hafter h ih =>
      cases hplain with
      | last hsolid hcloses =>
          have htrim := hsolid.trim_padded hbefore hafter
          refine ⟨n, [], line, List.forall_mem_nil _, fun _ => rfl, .single line, ?_⟩
          rw [layout_solid_close hsolid htrim hcloses, layout_idle h]
          rfl
      | cons hsolid hlast hmore =>
          have htrim := hsolid.trim_padded hbefore hafter
          obtain ⟨m, gap, text, hgap, -, hjoined, hlayout⟩ :=
            @ih (some (Block.resume current n line)) (n + 1) hmore
          refine ⟨n, [], line ++ (' ' :: gap) ++ text, List.forall_mem_nil _, fun _ => rfl,
            .cons (List.forall_mem_cons.2 ⟨hspace, hgap⟩) hjoined, ?_⟩
          rw [layout_solid_continue hsolid htrim hlast, hlayout, Block.resume,
            Block.extend_resume, List.nil_append, List.append_assoc]
          rfl

end

/-! ## Reading a rule -/

theorem tokens_blanks {gap : List Char} (h : ∀ c ∈ gap, isBlank c = true) (rest : List Char) :
    tokens (gap ++ rest) = tokens rest := by
  induction gap with
  | nil => rfl
  | cons c gap ih =>
      obtain ⟨hc, hgap⟩ := List.forall_mem_cons.1 h
      rw [List.cons_append, tokens_separator (by simp [isSeparator, hc]), ih hgap]

theorem Joined.of_cons {piece text : List Char} {more : List (List Char)}
    (h : Joined (piece :: more) text) (hne : more ≠ []) : ∃ gap rest,
      (∀ c ∈ gap, isBlank c = true) ∧ text = piece ++ gap ++ rest ∧ Joined more rest := by
  cases h with
  | single => exact absurd rfl hne
  | @cons _ gap rest _ hgap h => exact ⟨gap, rest, hgap, rfl, h⟩

theorem bodyChunks_ne_nil : (list : List String) → bodyChunks list ≠ []
  | [] | [_] | _ :: _ :: _ => List.cons_ne_nil _ _

/-- The parts of a body are read back, whatever blanks stand between them. -/
theorem exists_body_eq : (list : List String) → {text : List Char} →
    Joined ((bodyChunks list).map Chunk.text) text →
      ∃ body, text = body ++ [']'] ∧ tokens body = .ok list
  | [], _, h => by
      cases h with
      | single => exact ⟨[], rfl, tokens_nil⟩
      | cons _ hnone => cases hnone
  | [token], _, h => by
      obtain ⟨gap, _, hgap, rfl, hclose⟩ := Joined.of_cons h (List.cons_ne_nil _ _)
      obtain ⟨body, rfl, hbody⟩ := exists_body_eq [] hclose
      refine ⟨writeToken token ++ (gap ++ body), by simp, ?_⟩
      rw [tokens_writeToken, tokens_blanks hgap, hbody]
      rfl
  | token :: next :: more, _, h => by
      obtain ⟨gap, _, hgap, rfl, hmore⟩ := Joined.of_cons h (by simp [bodyChunks_ne_nil])
      obtain ⟨body, rfl, hbody⟩ := exists_body_eq (next :: more) hmore
      refine ⟨writeToken token ++ ',' :: (gap ++ body), by simp, ?_⟩
      rw [tokens_writeToken, tokens_separator (by decide), tokens_blanks hgap, hbody]
      rfl

theorem read_joined {text : List Char} (hkey : IsKey symbol)
    (h : Joined ((chunks symbol rule).map Chunk.text) text) (n : Nat) :
    Block.read ⟨n, text⟩ = .ok (symbol, rule) := by
  obtain ⟨name, hname, hplain, -, hsymbol⟩ := hkey
  obtain ⟨before, _, hbefore, rfl, hsign⟩ := h.of_cons (List.cons_ne_nil _ _)
  obtain ⟨after, _, hafter, rfl, hopen⟩ := Joined.of_cons hsign (List.cons_ne_nil _ _)
  obtain ⟨gap, _, hgap, rfl, hbody⟩ := Joined.of_cons hopen (by simp [bodyChunks_ne_nil])
  obtain ⟨body, rfl, htokens⟩ := exists_body_eq rule.tokens hbody
  refine Block.read_eq_ok_iff.2 ⟨gap ++ body, ?_, (tokens_blanks hgap body).trans htokens⟩
  have hrule := @IsRule.intro name before after (gap ++ body) hname hplain hbefore hafter
  simpa [hsymbol] using hrule

theorem solid_writeToken (token : String) :
    Solid (writeToken token) ∧ (writeToken token).getLast? ≠ some ']' := by
  unfold writeToken
  cases hp : isPlainlyBracketed token with
  | true =>
      obtain ⟨name, -, htoken⟩ := isPlainlyBracketed_iff.1 hp
      rw [if_pos rfl, htoken, List.getLast?_concat]
      exact ⟨.of_ends (by decide) (by decide) (by decide), by decide⟩
  | false =>
      rw [if_neg Bool.false_ne_true, List.getLast?_concat]
      exact ⟨.of_ends (by decide) (by decide) (by decide), by decide⟩

theorem oneBlock_bodyChunks : (list : List String) → OneBlock ((bodyChunks list).map Chunk.text)
  | [] => .last (.singleton (by decide) (by decide)) rfl
  | [token] => by
      obtain ⟨hsolid, hopen⟩ := solid_writeToken token
      exact .cons hsolid hopen (oneBlock_bodyChunks [])
  | token :: next :: more => by
      obtain ⟨hsolid, -⟩ := solid_writeToken token
      have hpart := hsolid.append (.singleton (c := ',') (by decide) (by decide)) []
      rw [List.append_nil] at hpart
      refine .cons hpart ?_ (oneBlock_bodyChunks (next :: more))
      rw [List.getLast?_concat]
      decide

theorem oneBlock_chunks (hkey : IsKey symbol) (rule : Rule) :
    OneBlock ((chunks symbol rule).map Chunk.text) := by
  obtain ⟨name, -, -, -, hsymbol⟩ := hkey
  have hsign : Solid ([':', ':'] ++ ['=']) := .of_ends (by decide) (by decide) (by decide)
  have hbracket : Solid ['['] := .singleton (by decide) (by decide)
  refine .cons ?_ ?_ (.cons hsign (by decide) (.cons hbracket (by decide)
    (oneBlock_bodyChunks rule.tokens)))
  · rw [hsymbol]
    exact .of_ends (by decide) (by decide) (by decide)
  · rw [hsymbol, List.getLast?_concat]
    decide

/-- However a rule is laid out, its lines are one block, which is read as the rule. -/
theorem exists_layout_of_broken {broken : List (List Char)} (hkey : IsKey symbol)
    (hbroken : Broken (chunks symbol rule) broken) (h : Spaced broken lines) (n : Nat) :
    ∃ b, layout none n lines = ⟨[b], none⟩ ∧ b.read = .ok (symbol, rule) := by
  have hone := hbroken.oneBlock (oneBlock_chunks hkey rule)
  obtain ⟨m, gap, text, -, hgap, hjoined, hlayout⟩ := @exists_layout_eq _ _ none n hone h
  rw [hgap rfl] at hlayout
  exact ⟨_, hlayout, read_joined hkey (hbroken.joined hjoined) m⟩

end Listing

end GrammarSampler

import GrammarSampler.Listing.Parser
import GrammarSampler.Proofs.Listing.Tokens

/-!
# Bodies that can be read

A body is a row of pieces: separators, names in angle brackets, quotes, and words without quotes. It
is read exactly if it falls into pieces, and it does so in one way at most. A body that does not is
told by the first place at which no piece can stand.
-/

namespace GrammarSampler

namespace Listing

open Text

/-! ## Characters within quotes -/

/-- A character within quotes, with or without a backslash before it. -/
inductive Glyph where
  | plain (c : Char)
  | escaped (c : Char)
  deriving DecidableEq, Repr

namespace Glyph

def spelling : Glyph → List Char
  | .plain c => [c]
  | .escaped c => ['\\', c]

/-- The character that is meant: after a backslash, three letters stand for controls. -/
def value : Glyph → Char
  | .plain c => c
  | .escaped 'n' => '\n'
  | .escaped 'r' => '\r'
  | .escaped 't' => '\t'
  | .escaped c => c

/-- Whether a character is neither the end of the quote nor the start of an escape. -/
def Within (quote : Char) : Glyph → Prop
  | .plain c => c ≠ '\\' ∧ c ≠ quote
  | .escaped _ => True

instance (quote : Char) (glyph : Glyph) : Decidable (glyph.Within quote) :=
  match glyph with
  | .plain c => inferInstanceAs (Decidable (c ≠ '\\' ∧ c ≠ quote))
  | .escaped _ => inferInstanceAs (Decidable True)

variable {quote : Char} {rest : List Char} {glyph : Glyph} {glyphs others : List Glyph}

theorem value_escaped (c : Char) : (escaped c).value = unescape c := by
  unfold value unescape
  split <;> simp_all

theorem quoted_spelling (h : glyph.Within quote) (rest : List Char) :
    quoted quote (glyph.spelling ++ rest) =
      (quoted quote rest).map fun (token, after) => (glyph.value :: token, after) := by
  cases glyph with
  | plain c => exact quoted_plain h.1 h.2 rest
  | escaped c =>
      rw [value_escaped]
      exact quoted_backslash c rest

theorem quoted_flatMap_spelling (h : ∀ glyph ∈ glyphs, glyph.Within quote) (rest : List Char) :
    quoted quote (glyphs.flatMap spelling ++ rest) =
      (quoted quote rest).map fun (token, after) => (glyphs.map value ++ token, after) := by
  induction glyphs with
  | nil => cases hrest : quoted quote rest <;> simp [hrest, Except.map]
  | cons glyph glyphs ih =>
      obtain ⟨hglyph, hglyphs⟩ := List.forall_mem_cons.1 h
      rw [List.flatMap_cons, List.append_assoc, quoted_spelling hglyph, ih hglyphs]
      cases quoted quote rest <;> rfl

/-- Every text begins with characters that can stand within quotes, up to its end, to a backslash
without anything after it, or to the quote that closes. -/
theorem exists_glyphs (quote : Char) (s : List Char) : ∃ (glyphs : List Glyph) (tail : List Char),
    (∀ glyph ∈ glyphs, glyph.Within quote) ∧ s = glyphs.flatMap spelling ++ tail ∧
      (tail = [] ∨ tail = ['\\'] ∨ ∃ after, tail = quote :: after) := by
  fun_induction quoted quote s with
  | case1 => exact ⟨[], [], by simp, rfl, .inl rfl⟩
  | case2 => exact ⟨[], ['\\'], by simp, rfl, .inr (.inl rfl)⟩
  | case3 c more ih =>
      obtain ⟨glyphs, tail, hglyphs, rfl, htail⟩ := ih
      exact ⟨.escaped c :: glyphs, tail, List.forall_mem_cons.2 ⟨trivial, hglyphs⟩, rfl, htail⟩
  | case4 rest => exact ⟨[], quote :: rest, by simp, rfl, .inr (.inr ⟨rest, rfl⟩)⟩
  | case5 c rest hescape hquote ih =>
      obtain ⟨glyphs, tail, hglyphs, rfl, htail⟩ := ih
      exact ⟨.plain c :: glyphs, tail, List.forall_mem_cons.2 ⟨⟨hescape, hquote⟩, hglyphs⟩, rfl,
        htail⟩

theorem eq_of_spelling_append_eq {other : Glyph} {more : List Char} (h : glyph.Within quote)
    (hother : other.Within quote) (hsame : glyph.spelling ++ rest = other.spelling ++ more) :
    glyph = other ∧ rest = more := by
  cases glyph with
  | plain c =>
      cases other with
      | plain d => simpa [spelling] using hsame
      | escaped d => exact absurd (List.cons.inj hsame).1 h.1
  | escaped c =>
      cases other with
      | plain d => exact absurd (List.cons.inj hsame).1.symm hother.1
      | escaped d => simpa [spelling] using hsame

/-- Characters within quotes can be told apart. -/
theorem eq_of_flatMap_spelling_eq (h : ∀ glyph ∈ glyphs, glyph.Within quote)
    (hothers : ∀ glyph ∈ others, glyph.Within quote)
    (hsame : glyphs.flatMap spelling = others.flatMap spelling) : glyphs = others := by
  induction glyphs generalizing others with
  | nil =>
      cases others with
      | nil => rfl
      | cons other others => cases other <;> cases hsame
  | cons glyph glyphs ih =>
      obtain ⟨hglyph, hglyphs⟩ := List.forall_mem_cons.1 h
      cases others with
      | nil => cases glyph <;> cases hsame
      | cons other others =>
          obtain ⟨hother, hmore⟩ := List.forall_mem_cons.1 hothers
          rw [List.flatMap_cons, List.flatMap_cons] at hsame
          obtain ⟨rfl, hrest⟩ := eq_of_spelling_append_eq hglyph hother hsame
          rw [ih hglyphs hmore hrest]

end Glyph

/-! ## Pieces -/

/-- A part of a body that is read at once. -/
inductive Piece where
  | separator (c : Char)
  | bracketed (name : List Char)
  | quoted (quote : Char) (glyphs : List Glyph)
  | bare (word : List Char)
  deriving DecidableEq, Repr

/-- Whether a word without quotes ends before `c`. -/
def EndsWord (c : Char) : Prop := c = ',' ∨ c = '<' ∨ isBlank c = true

instance (c : Char) : Decidable (EndsWord c) :=
  inferInstanceAs (Decidable (c = ',' ∨ c = '<' ∨ isBlank c = true))

theorem isSeparator_eq_true_iff {c : Char} :
    isSeparator c = true ↔ c = ',' ∨ isBlank c = true := by
  simp [isSeparator]

theorem endsBare_eq_true_iff {c : Char} : endsBare c = true ↔ EndsWord c := by
  simp [endsBare, EndsWord, or_assoc]

def OpensQuote (c : Char) : Prop := c = '\x22' ∨ c = '\x27'

instance (c : Char) : Decidable (OpensQuote c) :=
  inferInstanceAs (Decidable (c = '\x22' ∨ c = '\x27'))

theorem OpensQuote.not_endsWord {c : Char} (h : OpensQuote c) : ¬ EndsWord c := by
  rcases h with rfl | rfl <;> decide

theorem isQuote_eq_true_iff {c : Char} : isQuote c = true ↔ OpensQuote c := by
  simp [isQuote, OpensQuote]

theorem piece_of_opensQuote {c : Char} (h : OpensQuote c) (rest : List Char) :
    (∀ token after, quoted c rest = .ok (token, after) →
      piece c rest = .ok (some token, after)) ∧
    (quoted c rest = .error .unterminated → piece c rest = .error (.openQuote (c :: rest))) ∧
    (quoted c rest = .error .danglingEscape →
      piece c rest = .error (.danglingEscape (c :: rest))) := by
  have hseparator : ¬ isSeparator c = true := fun hs =>
    h.not_endsWord ((isSeparator_eq_true_iff.1 hs).imp_right .inr)
  have hangle : ¬ c = '<' := fun hangle => h.not_endsWord (.inr (.inl hangle))
  rw [piece, if_neg hseparator, if_neg hangle, if_pos (isQuote_eq_true_iff.2 h)]
  refine ⟨fun token after hquoted => ?_, fun hquoted => ?_, fun hquoted => ?_⟩
  all_goals rw [hquoted]

namespace Piece

def spelling : Piece → List Char
  | .separator c => [c]
  | .bracketed name => '<' :: name ++ ['>']
  | .quoted quote glyphs => quote :: glyphs.flatMap Glyph.spelling ++ [quote]
  | .bare word => word

/-- The token that a piece is: a name with its brackets, or a text without its quotes. -/
def token? : Piece → Option (List Char)
  | .separator _ => none
  | .bracketed name => some ('<' :: name ++ ['>'])
  | .quoted _ glyphs => some (glyphs.map Glyph.value)
  | .bare word => some word

/-- Whether a piece is well formed, and a word without quotes ends before `rest`. -/
def Before (rest : List Char) : Piece → Prop
  | .separator c => c = ',' ∨ isBlank c = true
  | .bracketed name => '>' ∉ name
  | .quoted quote glyphs => OpensQuote quote ∧ ∀ glyph ∈ glyphs, glyph.Within quote
  | .bare word => word ≠ [] ∧ (∀ c ∈ word.head?, ¬ OpensQuote c) ∧ (∀ c ∈ word, ¬ EndsWord c) ∧
      ∀ c ∈ rest.head?, EndsWord c

instance (rest : List Char) (p : Piece) : Decidable (p.Before rest) :=
  match p with
  | .separator c => inferInstanceAs (Decidable (c = ',' ∨ isBlank c = true))
  | .bracketed name => inferInstanceAs (Decidable ('>' ∉ name))
  | .quoted quote glyphs =>
    inferInstanceAs (Decidable (OpensQuote quote ∧ ∀ glyph ∈ glyphs, glyph.Within quote))
  | .bare word =>
    -- there are finitely many characters, and without these instances all of them could be tried
    letI : Decidable (∀ c ∈ word.head?, ¬ OpensQuote c) := Option.decidableForallMem _
    letI : Decidable (∀ c ∈ word, ¬ EndsWord c) := List.decidableBAll _ _
    letI : Decidable (∀ c ∈ rest.head?, EndsWord c) := Option.decidableForallMem _
    inferInstanceAs (Decidable (word ≠ [] ∧ (∀ c ∈ word.head?, ¬ OpensQuote c) ∧
      (∀ c ∈ word, ¬ EndsWord c) ∧ ∀ c ∈ rest.head?, EndsWord c))

variable {p q : Piece} {rest more : List Char}

theorem spelling_ne_nil (h : p.Before rest) : p.spelling ≠ [] := by
  cases p with
  | separator c => exact List.cons_ne_nil _ _
  | bracketed name => exact List.cons_ne_nil _ _
  | quoted quote glyphs => exact List.cons_ne_nil _ _
  | bare word => exact h.1

/-- A piece at the start of a text is what is read first. -/
theorem piece_of_before (h : p.Before rest) : ∃ c more,
    p.spelling ++ rest = c :: more ∧ piece c more = .ok (p.token?, rest) := by
  cases p with
  | separator c =>
      refine ⟨c, rest, rfl, ?_⟩
      rw [piece, if_pos (isSeparator_eq_true_iff.2 h)]
      rfl
  | bracketed name =>
      have hname := forall_bne_of_not_mem h
      refine ⟨'<', name ++ '>' :: rest, by simp [spelling], ?_⟩
      rw [piece, if_neg (by decide), if_pos rfl, dropWhile_append_cons hname (by decide),
        takeWhile_append_cons hname (by decide)]
      rfl
  | quoted quote glyphs =>
      obtain ⟨hquote, hglyphs⟩ := h
      have hread : Listing.quoted quote (glyphs.flatMap Glyph.spelling ++ quote :: rest) =
          .ok (glyphs.map Glyph.value, rest) := by
        rw [Glyph.quoted_flatMap_spelling hglyphs, quoted_close]
        · simp [Except.map]
        · rcases hquote with rfl | rfl <;> decide
      refine ⟨quote, glyphs.flatMap Glyph.spelling ++ quote :: rest, by simp [spelling], ?_⟩
      exact (piece_of_opensQuote hquote _).1 _ _ hread
  | bare word =>
      obtain ⟨hne, hfirst, hword, hrest⟩ := h
      obtain ⟨c, word, rfl⟩ := List.exists_cons_of_ne_nil hne
      obtain ⟨hc, hword⟩ := List.forall_mem_cons.1 hword
      have hplain : ∀ d ∈ word, (!endsBare d) = true := by
        intro d hd
        have hd := endsBare_eq_true_iff.not.2 (hword d hd)
        simpa using hd
      have hstop : rest.takeWhile (!endsBare ·) = [] ∧ rest.dropWhile (!endsBare ·) = rest := by
        cases rest with
        | nil => exact ⟨rfl, rfl⟩
        | cons d rest => simp [endsBare_eq_true_iff.2 (hrest d rfl)]
      refine ⟨c, word ++ rest, rfl, ?_⟩
      have hseparator : ¬ isSeparator c = true := fun hs =>
        hc ((isSeparator_eq_true_iff.1 hs).imp_right .inr)
      have hopens : ¬ isQuote c = true := isQuote_eq_true_iff.not.2 (hfirst c rfl)
      rw [piece, if_neg hseparator, if_neg fun hangle => hc (.inr (.inl hangle)), if_neg hopens,
        List.takeWhile_append_of_pos hplain, List.dropWhile_append_of_pos hplain, hstop.1, hstop.2,
        List.append_nil]
      rfl

/-- Whether pieces of a kind begin with `c`. -/
def BeginsWith (c : Char) : Piece → Prop
  | .separator _ => c = ',' ∨ isBlank c = true
  | .bracketed _ => c = '<'
  | .quoted _ _ => OpensQuote c
  | .bare _ => ¬ EndsWord c ∧ ¬ OpensQuote c

theorem exists_beginsWith (h : p.Before rest) :
    ∃ c more, p.spelling = c :: more ∧ p.BeginsWith c := by
  cases p with
  | separator c => exact ⟨c, [], rfl, h⟩
  | bracketed name => exact ⟨'<', name ++ ['>'], rfl, rfl⟩
  | quoted quote glyphs => exact ⟨quote, glyphs.flatMap Glyph.spelling ++ [quote], rfl, h.1⟩
  | bare word =>
      obtain ⟨hne, hfirst, hword, -⟩ := h
      obtain ⟨c, more, rfl⟩ := List.exists_cons_of_ne_nil hne
      exact ⟨c, more, rfl, hword c List.mem_cons_self, hfirst c rfl⟩

/-- Pieces can be told apart: each kind begins in its own way, and within a kind the spelling shows
what a piece is. -/
theorem eq_of_spelling_eq (hp : p.Before rest) (hq : q.Before rest)
    (hsame : p.spelling = q.spelling) : p = q := by
  obtain ⟨c, more, hspell, hc⟩ := exists_beginsWith hp
  obtain ⟨d, other, hother, hd⟩ := exists_beginsWith hq
  obtain ⟨rfl, -⟩ := List.cons.inj (hspell.symm.trans (hsame.trans hother))
  have hangle : ¬ OpensQuote '<' ∧ ¬ isBlank '<' = true := by decide
  have hquote : OpensQuote c → ¬ EndsWord c := OpensQuote.not_endsWord
  cases p with
  | separator c =>
      cases q with
      | separator d => simpa [spelling] using hsame
      | _ => simp_all [BeginsWith, EndsWord]
  | bracketed name =>
      cases q with
      | bracketed other => simpa [spelling] using hsame
      | _ => simp_all [BeginsWith, EndsWord]
  | quoted quote glyphs =>
      cases q with
      | quoted _ others =>
          obtain ⟨rfl, hglyphs⟩ := List.cons.inj hsame
          rw [Glyph.eq_of_flatMap_spelling_eq hp.2 hq.2 (List.append_cancel_right hglyphs)]
      | _ => simp_all [BeginsWith, EndsWord]
  | bare word =>
      cases q with
      | bare other => exact congrArg bare hsame
      | _ => simp_all [BeginsWith, EndsWord]

/-- A text begins with one piece only. -/
theorem eq_of_spelling_append_eq (hp : p.Before rest) (hq : q.Before more)
    (hsame : p.spelling ++ rest = q.spelling ++ more) : p = q ∧ rest = more := by
  obtain ⟨c, tail, hspell, hread⟩ := piece_of_before hp
  obtain ⟨d, other, hother, hsecond⟩ := piece_of_before hq
  obtain ⟨rfl, rfl⟩ := List.cons.inj (hspell.symm.trans (hsame.trans hother))
  obtain ⟨-, rfl⟩ := Prod.mk.inj (Except.ok.inj (hread.symm.trans hsecond))
  exact ⟨eq_of_spelling_eq hp hq (List.append_cancel_right hsame), rfl⟩

end Piece

/-! ## Rows of pieces -/

/-- Whether a text is some pieces in turn, up to `rest`. -/
inductive Splits (rest : List Char) : List Char → List Piece → Prop
  | done : Splits rest rest []
  | piece {p : Piece} {after : List Char} {pieces : List Piece} (hp : p.Before after)
      (h : Splits rest after pieces) : Splits rest (p.spelling ++ after) (p :: pieces)

/-- Whether no piece stands at the start of a text, and why: what opens there does not close. -/
inductive Stuck : List Char → Cause → Prop
  | bracket {name : List Char} (hname : '>' ∉ name) :
      Stuck ('<' :: name) (.openBracket ('<' :: name))
  | quote {quote : Char} {glyphs : List Glyph} (hquote : OpensQuote quote)
      (hglyphs : ∀ glyph ∈ glyphs, glyph.Within quote) :
      Stuck (quote :: glyphs.flatMap Glyph.spelling)
        (.openQuote (quote :: glyphs.flatMap Glyph.spelling))
  | escape {quote : Char} {glyphs : List Glyph} (hquote : OpensQuote quote)
      (hglyphs : ∀ glyph ∈ glyphs, glyph.Within quote) :
      Stuck (quote :: (glyphs.flatMap Glyph.spelling ++ ['\\']))
        (.danglingEscape (quote :: (glyphs.flatMap Glyph.spelling ++ ['\\'])))

variable {s rest : List Char} {pieces other : List Piece} {list : List String} {cause : Cause}

theorem Splits.of_cons {p : Piece} (h : Splits rest s (p :: pieces)) :
    ∃ after, s = p.spelling ++ after ∧ p.Before after ∧ Splits rest after pieces := by
  cases h with
  | piece hp h => exact ⟨_, rfl, hp, h⟩

theorem Splits.eq_of_nil (h : Splits rest s []) : s = rest := by
  cases h with
  | done => rfl

/-- The tokens that some pieces are. -/
def tokensOf (pieces : List Piece) : List String :=
  (pieces.filterMap Piece.token?).map String.ofList

theorem tokens_of_before {p : Piece} (h : p.Before rest) :
    tokens (p.spelling ++ rest) = (tokens rest).map (tokensOf [p] ++ ·) := by
  obtain ⟨c, more, hspell, hpiece⟩ := Piece.piece_of_before h
  rw [hspell, tokens_of_piece hpiece]
  cases hp : p.token? <;> simp [tokensOf, hp]

/-- Pieces are read in turn, and then what follows them. -/
theorem tokens_of_splits (h : Splits rest s pieces) :
    tokens s = (tokens rest).map (tokensOf pieces ++ ·) := by
  induction h with
  | done => cases tokens rest <;> simp [tokensOf, Except.map]
  | @piece p after pieces hp h ih =>
      have hsplit : tokensOf (p :: pieces) = tokensOf [p] ++ tokensOf pieces := by
        cases ht : p.token? <;> simp [tokensOf, ht]
      rw [tokens_of_before hp, ih, hsplit]
      cases tokens rest <;> simp [Except.map]

theorem tokens_of_piece_error {c : Char} (h : piece c rest = .error cause) :
    tokens (c :: rest) = .error cause := by
  rw [tokens]
  split
  · next hp =>
      cases h.symm.trans hp
      rfl
  · next hp => cases h.symm.trans hp

/-- Nothing is read where no piece can stand. -/
theorem tokens_of_stuck (h : Stuck s cause) : tokens s = .error cause := by
  cases h with
  | @bracket name hname =>
      have hdrop : name.dropWhile (· != '>') = [] :=
        List.dropWhile_eq_nil_iff.2 (forall_bne_of_not_mem hname)
      refine tokens_of_piece_error ?_
      rw [piece, if_neg (by decide), if_pos rfl, hdrop]
  | @quote quote glyphs hquote hglyphs =>
      have hopen : quoted quote (glyphs.flatMap Glyph.spelling) = .error .unterminated := by
        have hread := Glyph.quoted_flatMap_spelling hglyphs []
        rwa [List.append_nil, quoted] at hread
      exact tokens_of_piece_error ((piece_of_opensQuote hquote _).2.1 hopen)
  | @escape quote glyphs hquote hglyphs =>
      have hopen : quoted quote (glyphs.flatMap Glyph.spelling ++ ['\\']) =
          .error .danglingEscape := by
        rw [Glyph.quoted_flatMap_spelling hglyphs, quoted, if_pos rfl]
        rfl
      exact tokens_of_piece_error ((piece_of_opensQuote hquote _).2.2 hopen)

/-- At the start of a text there is a piece, or something opens that does not close. -/
theorem exists_before_or_stuck (hs : s ≠ []) :
    (∃ p after, s = Piece.spelling p ++ after ∧ p.Before after) ∨ ∃ cause, Stuck s cause := by
  obtain ⟨c, rest, rfl⟩ := List.exists_cons_of_ne_nil hs
  by_cases hseparator : c = ',' ∨ isBlank c = true
  · exact .inl ⟨.separator c, rest, rfl, hseparator⟩
  by_cases hangle : c = '<'
  · subst hangle
    by_cases hclose : '>' ∈ rest
    · obtain ⟨name, after, rfl, hname⟩ := List.eq_append_cons_of_mem hclose
      exact .inl ⟨.bracketed name, after, by simp [Piece.spelling], hname⟩
    · exact .inr ⟨_, .bracket hclose⟩
  by_cases hquote : OpensQuote c
  · obtain ⟨glyphs, tail, hglyphs, rfl, rfl | rfl | ⟨after, rfl⟩⟩ := Glyph.exists_glyphs c rest
    · rw [List.append_nil]
      exact .inr ⟨_, .quote hquote hglyphs⟩
    · exact .inr ⟨_, .escape hquote hglyphs⟩
    · exact .inl ⟨.quoted c glyphs, after, by simp [Piece.spelling], hquote, hglyphs⟩
  · have hword : ¬ EndsWord c := by
      rintro (rfl | rfl | hblank)
      · exact hseparator (.inl rfl)
      · exact hangle rfl
      · exact hseparator (.inr hblank)
    refine .inl ⟨.bare (c :: rest.takeWhile (¬ EndsWord ·)), rest.dropWhile (¬ EndsWord ·), ?_, ?_⟩
    · rw [Piece.spelling, List.cons_append, List.takeWhile_append_dropWhile]
    · refine ⟨List.cons_ne_nil _ _, ?_, List.forall_mem_cons.2 ⟨hword, fun d hd => ?_⟩, ?_⟩
      · rintro _ ⟨⟩
        exact hquote
      · simpa using List.mem_takeWhile_imp hd
      · intro d hd
        have hstop := List.head?_dropWhile_not (¬ EndsWord ·) rest
        rw [Option.mem_def.1 hd] at hstop
        simpa using hstop

/-- Every text is pieces in turn, up to its end or to where no piece can stand. -/
theorem exists_splits (s : List Char) :
    ∃ pieces rest, Splits rest s pieces ∧ (rest = [] ∨ ∃ cause, Stuck rest cause) := by
  by_cases hs : s = []
  · subst hs
    exact ⟨[], [], .done, .inl rfl⟩
  · obtain ⟨p, after, rfl, hp⟩ | hstuck := exists_before_or_stuck hs
    · have hshorter : after.length < (p.spelling ++ after).length := by
        have hspell := List.length_pos_iff.2 (Piece.spelling_ne_nil hp)
        rw [List.length_append]
        omega
      obtain ⟨pieces, rest, hsplits, hrest⟩ := exists_splits after
      exact ⟨p :: pieces, rest, .piece hp hsplits, hrest⟩
    · exact ⟨[], s, .done, .inr hstuck⟩
termination_by s.length

/-- A text is pieces in one way at most. -/
theorem Splits.unique (h : Splits [] s pieces) (h' : Splits [] s other) : pieces = other := by
  induction h generalizing other with
  | done =>
      cases other with
      | nil => rfl
      | cons q other =>
          obtain ⟨after, hspell, hq, -⟩ := h'.of_cons
          exact absurd (List.append_eq_nil_iff.1 hspell.symm).1 (Piece.spelling_ne_nil hq)
  | @piece p after pieces hp h ih =>
      cases other with
      | nil => exact absurd (List.append_eq_nil_iff.1 h'.eq_of_nil).1 (Piece.spelling_ne_nil hp)
      | cons q other =>
          obtain ⟨more, hspell, hq, hmore⟩ := h'.of_cons
          obtain ⟨rfl, rfl⟩ := Piece.eq_of_spelling_append_eq hp hq hspell
          rw [ih hmore]

/-- What is read is what the pieces are. -/
theorem tokens_of_splits_nil (h : Splits [] s pieces) : tokens s = .ok (tokensOf pieces) := by
  rw [tokens_of_splits h, tokens_nil]
  simp [Except.map]

theorem tokens_eq_ok_iff : tokens s = .ok list ↔
    ∃ pieces, Splits [] s pieces ∧ list = tokensOf pieces := by
  apply Iff.intro
  · intro h
    obtain ⟨pieces, rest, hsplits, rfl | ⟨cause, hstuck⟩⟩ := exists_splits s
    · rw [tokens_of_splits_nil hsplits, Except.ok.injEq] at h
      exact ⟨pieces, hsplits, h.symm⟩
    · rw [tokens_of_splits hsplits, tokens_of_stuck hstuck] at h
      cases h
  · rintro ⟨pieces, hsplits, rfl⟩
    exact tokens_of_splits_nil hsplits

/-- What cannot be read is told by the place at which no piece can stand. -/
theorem exists_stuck (h : ¬ ∃ pieces, Splits [] s pieces) : ∃ pieces rest cause,
    Splits rest s pieces ∧ Stuck rest cause ∧ tokens s = .error cause := by
  obtain ⟨pieces, rest, hsplits, rfl | ⟨cause, hstuck⟩⟩ := exists_splits s
  · exact absurd ⟨pieces, hsplits⟩ h
  · refine ⟨pieces, rest, cause, hsplits, hstuck, ?_⟩
    rw [tokens_of_splits hsplits, tokens_of_stuck hstuck]
    rfl

end Listing

namespace Rule

open Listing

/-- A body is read if it falls into pieces, which it does in one way at most, and the tokens of the
rule are then the pieces in turn without the separators. Any other body is told, with the line it is
said to be on, by what opens after the last piece and does not close. -/
theorem ofBody_format (line : Nat) (body : String) :
    (∀ rule, Rule.ofBody line body = .ok rule ↔
      ∃ pieces, Splits [] body.toList pieces ∧
        rule.tokens = (pieces.filterMap Piece.token?).map String.ofList) ∧
    (∀ pieces other, Splits [] body.toList pieces → Splits [] body.toList other →
      pieces = other) ∧
    ((¬ ∃ pieces, Splits [] body.toList pieces) → ∃ pieces rest cause,
      Splits rest body.toList pieces ∧ Stuck rest cause ∧
        Rule.ofBody line body = .error (.parse line cause.message)) := by
  refine ⟨fun rule => ?_, fun pieces other => Splits.unique, fun h => ?_⟩
  · obtain ⟨list⟩ := rule
    have hbody : Rule.ofBody line body = .ok ⟨list⟩ ↔ Listing.tokens body.toList = .ok list := by
      rw [Rule.ofBody, Listing.rule]
      cases Listing.tokens body.toList <;> simp
    rw [hbody, tokens_eq_ok_iff]
    rfl
  · obtain ⟨pieces, rest, cause, hsplits, hstuck, hbody⟩ := exists_stuck h
    refine ⟨pieces, rest, cause, hsplits, hstuck, ?_⟩
    rw [Rule.ofBody, Listing.rule, hbody]
    rfl

/-- Pieces that touch, among them both quotes and all escapes that stand for another character. -/
def touching : List Piece :=
  [.bracketed ['a', ' ', 'b'],
    .quoted '\x22' [.plain '<', .escaped '\x22', .escaped 'n', .escaped 'r', .escaped 't',
      .plain '\x27'],
    .quoted '\x27' [.plain ',', .escaped 'x'], .separator ',', .bare ['y', '\x22', '>'],
    .bracketed ['c'], .separator ' ']

def touchingBody : String := "<a b>\x22<\\\x22\\n\\r\\t\x27\x22\x27,\\x\x27,y\x22><c> "

theorem splits_touching : Splits [] touchingBody.toList touching := by
  have hspell : touchingBody.toList = touching.flatMap Piece.spelling := by decide
  rw [hspell]
  iterate 7 refine .piece (by decide) ?_
  exact .done

theorem ofBody_format_touching :
    Splits [] touchingBody.toList touching ∧
      Rule.ofBody 3 touchingBody =
        .ok ⟨["<a b>", "<\x22\n\r\t\x27", ",x", "y\x22>", "<c>"]⟩ ∧
      (∀ other, Splits [] touchingBody.toList other → other = touching) ∧
    (¬ ∃ pieces, Splits [] "a \x22b\\".toList pieces) ∧
      ∃ pieces rest cause, Splits rest "a \x22b\\".toList pieces ∧ Stuck rest cause ∧
        Rule.ofBody 7 "a \x22b\\" = .error (.parse 7 cause.message) := by
  obtain ⟨hread, hunique, -⟩ := ofBody_format 3 touchingBody
  obtain ⟨hbad, -, hstuck⟩ := ofBody_format 7 "a \x22b\\"
  have hnone : ¬ ∃ pieces, Splits [] "a \x22b\\".toList pieces := by
    rintro ⟨pieces, hsplits⟩
    have hok := (hbad ⟨_⟩).2 ⟨pieces, hsplits, rfl⟩
    have herror : Rule.ofBody 7 "a \x22b\\" =
        .error (.parse 7 (Cause.danglingEscape "\x22b\\".toList).message) := by
      decide +kernel
    rw [herror] at hok
    cases hok
  exact ⟨splits_touching, (hread _).2 ⟨touching, splits_touching, by decide⟩,
    fun other hother => hunique other touching hother splits_touching, hnone, hstuck hnone⟩

end Rule

end GrammarSampler

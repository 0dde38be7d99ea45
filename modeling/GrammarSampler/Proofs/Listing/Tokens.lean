import GrammarSampler.Listing.Production
import GrammarSampler.Proofs.Text.Lines

/-!
# Reading written tokens

However a token was written, reading takes just that token and goes on right after it. So a body is
read back token by token.
-/

namespace GrammarSampler

/-! ## Brackets -/

theorem isPlainlyBracketed_iff {token : String} : isPlainlyBracketed token = true ↔
    ∃ name, '>' ∉ name ∧ token.toList = '<' :: name ++ ['>'] := by
  simp only [isPlainlyBracketed, isBracketed, Bool.and_eq_true, beq_iff_eq, Bool.not_eq_true',
    List.contains_eq_mem, decide_eq_false_iff_not]
  constructor
  · intro h
    obtain ⟨⟨hfirst, hlast⟩, hplain⟩ := h
    obtain ⟨start, hstart⟩ := List.getLast?_eq_some_iff.1 hlast
    rw [hstart] at hfirst hplain ⊢
    rw [List.dropLast_concat] at hplain
    cases start with
    | nil => cases hfirst
    | cons c name =>
        obtain rfl : c = '<' := Option.some.inj hfirst
        exact ⟨name, List.not_mem_of_not_mem_cons hplain, rfl⟩
  · intro h
    obtain ⟨name, hname, htoken⟩ := h
    have hplain : '>' ∉ '<' :: name := by simp [hname]
    rw [htoken]
    refine ⟨⟨rfl, List.getLast?_concat⟩, ?_⟩
    rwa [List.dropLast_concat]

namespace Listing

open Text

variable {c : Char} {rest after : List Char}

/-! ## Pieces -/

theorem tokens_of_piece {token : Option (List Char)} (h : piece c rest = .ok (token, after)) :
    tokens (c :: rest) = (tokens after).map (token.toList.map String.ofList ++ ·) := by
  rw [tokens]
  split
  · next hp => cases h.symm.trans hp
  · next hp =>
      cases h.symm.trans hp
      rfl

theorem tokens_separator (h : isSeparator c = true) : tokens (c :: rest) = tokens rest := by
  have hpiece : piece c rest = .ok (none, rest) := by rw [piece, if_pos h]
  rw [tokens_of_piece hpiece]
  cases tokens rest <;> rfl

theorem tokens_bracketed {name : List Char} (h : '>' ∉ name) (rest : List Char) :
    tokens ('<' :: name ++ '>' :: rest) =
      (tokens rest).map (String.ofList ('<' :: name ++ ['>']) :: ·) := by
  have hname := forall_bne_of_not_mem h
  have hpiece : piece '<' (name ++ '>' :: rest) = .ok (some ('<' :: name ++ ['>']), rest) := by
    rw [piece, if_neg (by decide), if_pos rfl, dropWhile_append_cons hname (by decide),
      takeWhile_append_cons hname (by decide)]
  exact tokens_of_piece hpiece

/-! ## Quotes -/

variable {quote : Char}

theorem quoted_backslash (escaped : Char) (rest : List Char) :
    quoted quote ('\\' :: escaped :: rest) =
      (quoted quote rest).map fun (token, after) => (unescape escaped :: token, after) := by
  rw [quoted, if_pos rfl]

theorem quoted_close (h : quote ≠ '\\') (rest : List Char) :
    quoted quote (quote :: rest) = .ok ([], rest) := by
  cases rest <;> simp only [quoted, if_neg h, if_true]

theorem quoted_plain (hescape : c ≠ '\\') (hquote : c ≠ quote) (rest : List Char) :
    quoted quote (c :: rest) =
      (quoted quote rest).map fun (token, after) => (c :: token, after) := by
  cases rest <;> simp only [quoted, if_neg hescape, if_neg hquote]

/-- What is written for a character reads as that character. -/
theorem quoted_escape (c : Char) (rest : List Char) :
    quoted '\x22' (escape c ++ rest) =
      (quoted '\x22' rest).map fun (token, after) => (c :: token, after) := by
  by_cases hbackslash : c = '\\'
  · subst hbackslash
    exact quoted_backslash '\\' rest
  by_cases hquote : c = '\x22'
  · subst hquote
    exact quoted_backslash '\x22' rest
  by_cases hnewline : c = '\n'
  · subst hnewline
    exact quoted_backslash 'n' rest
  by_cases hreturn : c = '\r'
  · subst hreturn
    exact quoted_backslash 'r' rest
  by_cases htab : c = '\t'
  · subst htab
    exact quoted_backslash 't' rest
  have hescape : escape c = [c] := by
    simp [escape, hbackslash, hquote, hnewline, hreturn, htab]
  rw [hescape]
  exact quoted_plain hbackslash hquote rest

theorem quoted_flatMap_escape (s rest : List Char) :
    quoted '\x22' (s.flatMap escape ++ '\x22' :: rest) = .ok (s, rest) := by
  induction s with
  | nil => exact quoted_close (by decide) rest
  | cons c s ih =>
      rw [List.flatMap_cons, List.append_assoc, quoted_escape, ih]
      rfl

theorem tokens_quoted (s rest : List Char) :
    tokens ('\x22' :: s.flatMap escape ++ '\x22' :: rest) =
      (tokens rest).map (String.ofList s :: ·) := by
  have hpiece : piece '\x22' (s.flatMap escape ++ '\x22' :: rest) = .ok (some s, rest) := by
    rw [piece, if_neg (by decide), if_neg (by decide), if_pos (by decide), quoted_flatMap_escape]
  exact tokens_of_piece hpiece

/-! ## Bodies -/

theorem tokens_writeToken (token : String) (rest : List Char) :
    tokens (writeToken token ++ rest) = (tokens rest).map (token :: ·) := by
  unfold writeToken
  cases hp : isPlainlyBracketed token with
  | true =>
      obtain ⟨name, hname, htoken⟩ := isPlainlyBracketed_iff.1 hp
      have hread := tokens_bracketed hname rest
      rw [← htoken, String.ofList_toList] at hread
      rw [if_pos rfl, htoken, List.append_assoc]
      exact hread
  | false =>
      have hread := tokens_quoted token.toList rest
      rw [String.ofList_toList] at hread
      rw [if_neg Bool.false_ne_true, List.append_assoc]
      exact hread

theorem tokens_nil : tokens [] = .ok [] := by
  rw [tokens]

theorem writeBody_cons_cons (token next : String) (more : List String) :
    writeBody (token :: next :: more) =
      writeToken token ++ ',' :: ' ' :: writeBody (next :: more) := by
  simp [writeBody, List.intercalate]

/-- Every body is read back. -/
theorem tokens_writeBody (list : List String) : tokens (writeBody list) = .ok list := by
  induction list with
  | nil => exact tokens_nil
  | cons token more ih =>
      cases more with
      | nil =>
          have hread := tokens_writeToken token []
          rw [List.append_nil, tokens_nil] at hread
          rw [writeBody, List.map_singleton, List.intercalate_singleton, hread]
          rfl
      | cons next more =>
          rw [writeBody_cons_cons, tokens_writeToken, tokens_separator (by decide),
            tokens_separator (by decide), ih]
          rfl

end Listing

end GrammarSampler

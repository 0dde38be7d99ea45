import GrammarSampler.Json.Parser
import Mathlib.Data.List.TakeWhile

/-!
# Reading spelt tokens

However a token of JSON is spelt, reading takes just that token and goes on right after it, whatever
follows. Words and numbers have to be followed by something that cannot belong to them.
-/

namespace GrammarSampler.Json

variable {c : Char} {rest after : List Char} {token : Token}

/-! ## Strings -/

theorem elements_simpleEscape {escape : Char} (h : simpleEscape? escape = some c)
    (rest : List Char) : elements ('\\' :: escape :: rest) =
      (elements rest).map fun (more, after) => (.char c :: more, after) := by
  have hu : escape ≠ 'u' := by
    rintro rfl
    cases h
  cases hr : elements rest <;> simp [elements, hu, h, hr]

theorem elements_plain (hquote : c ≠ '\x22') (hescape : c ≠ '\\') (hcontrol : ¬ c.toNat < 0x20)
    (rest : List Char) : elements (c :: rest) =
      (elements rest).map fun (more, after) => (.char c :: more, after) := by
  simp [elements, hquote, hescape, hcontrol]

theorem elements_unit {a b c d : Char} {n : Nat} (h : hexUnit? a b c d = some n)
    (rest : List Char) : elements ('\\' :: 'u' :: a :: b :: c :: d :: rest) =
      (elements rest).map fun (more, after) => (.unit n :: more, after) := by
  cases hr : elements rest <;> simp [elements, h, hr]

theorem hexUnit?_control (n : Fin 0x20) :
    hexUnit? '0' '0' (hexDigit (n.val / 16)) (hexDigit n.val) = some n.val := by
  decide +revert

theorem assemble_control {n : Nat} (h : n < 0x20) (more : List Element) :
    assemble (.unit n :: more) = (assemble more).map (Char.ofNat n :: ·) := by
  have hhigh : isHighSurrogate n = false := by simp [isHighSurrogate]; omega
  have hlow : isLowSurrogate n = false := by simp [isLowSurrogate]; omega
  rw [assemble.eq_def]
  simp [hhigh, hlow]

/-- A character is spelt by a short escape, by its number or as itself. -/
theorem spellChar_cases (c : Char) :
    (∃ escape, simpleEscape? escape = some c ∧ spellChar c = ['\\', escape]) ∨
    (c.toNat < 0x20 ∧
      spellChar c = ['\\', 'u', '0', '0', hexDigit (c.toNat / 16), hexDigit c.toNat]) ∨
    (c ≠ '\x22' ∧ c ≠ '\\' ∧ ¬ c.toNat < 0x20 ∧ spellChar c = [c]) := by
  unfold spellChar
  split_ifs with hquote hescape hbackspace htab hnewline hfeed hreturn hcontrol
  · exact .inl ⟨'\x22', by rw [hquote]; rfl, rfl⟩
  · exact .inl ⟨'\\', by rw [hescape]; rfl, rfl⟩
  · exact .inl ⟨'b', hbackspace ▸ rfl, rfl⟩
  · exact .inl ⟨'t', htab ▸ rfl, rfl⟩
  · exact .inl ⟨'n', hnewline ▸ rfl, rfl⟩
  · exact .inl ⟨'f', hfeed ▸ rfl, rfl⟩
  · exact .inl ⟨'r', hreturn ▸ rfl, rfl⟩
  · exact .inr (.inl ⟨hcontrol, rfl⟩)
  · exact .inr (.inr ⟨hquote, hescape, hcontrol, rfl⟩)

/-- What is spelt for a character reads as one element, which stands for that character. -/
theorem exists_element (c : Char) : ∃ e,
    (∀ rest, elements (spellChar c ++ rest) =
      (elements rest).map fun (more, after) => (e :: more, after)) ∧
    ∀ more, assemble (e :: more) = (assemble more).map (c :: ·) := by
  rcases spellChar_cases c with ⟨escape, hc, hspell⟩ | ⟨hcontrol, hspell⟩ |
    ⟨hquote, hescape, hcontrol, hspell⟩
  · rw [hspell]
    exact ⟨.char c, elements_simpleEscape hc, fun _ => rfl⟩
  · rw [hspell]
    refine ⟨.unit c.toNat, elements_unit (hexUnit?_control ⟨c.toNat, hcontrol⟩), fun more => ?_⟩
    rw [assemble_control hcontrol, Char.ofNat_toNat]
  · rw [hspell]
    exact ⟨.char c, elements_plain hquote hescape hcontrol, fun _ => rfl⟩

theorem exists_elements_flatMap (s rest : List Char) : ∃ es,
    elements (s.flatMap spellChar ++ '\x22' :: rest) = some (es, rest) ∧ assemble es = some s := by
  induction s with
  | nil => exact ⟨[], by simp [elements], rfl⟩
  | cons c s ih =>
      obtain ⟨es, hread, hstand⟩ := ih
      obtain ⟨e, hfirst, hc⟩ := exists_element c
      refine ⟨e :: es, ?_, ?_⟩
      · rw [List.flatMap_cons, List.append_assoc, hfirst, hread]
        rfl
      · rw [hc, hstand]
        rfl

/-- A spelt string reads as its text, and as none if it has none. -/
theorem exists_elements_spellString (text : Option String) (rest : List Char) :
    ∃ inner es, spellString text ++ rest = '\x22' :: inner ∧ elements inner = some (es, rest) ∧
      (assemble es).map String.ofList = text := by
  cases text with
  | none =>
      have hunit : hexUnit? 'd' '8' '0' '0' = some 0xD800 := by decide
      refine ⟨_, [.unit 0xD800], rfl, (elements_unit hunit ('\x22' :: rest)).trans ?_, by decide⟩
      simp [elements]
  | some s =>
      obtain ⟨es, hread, hstand⟩ := exists_elements_flatMap s.toList rest
      refine ⟨_, es, ?_, hread, ?_⟩
      · simp [spellString]
      · rw [hstand, Option.map_some, String.ofList_toList]

/-! ## Numbers -/

theorem isNumberChar_of_isDigit (h : c.isDigit = true) : isNumberChar c = true := by
  simp [isNumberChar, h]

/-- A digit starts nothing but a number. -/
theorem starts_number_of_isDigit (h : c.isDigit = true) :
    isBlank c = false ∧ c ≠ '\x22' ∧ isLetter c = false := by
  have hne : ∀ d : Char, d.isDigit = false → c ≠ d := by
    rintro d hd rfl
    exact Bool.false_ne_true (hd.symm.trans h)
  have hletter : ¬ 'a' ≤ c := by
    intro hle
    simp only [Char.isDigit, Bool.and_eq_true, decide_eq_true_eq] at h
    exact absurd (Char.le_trans hle h.2) (by decide)
  refine ⟨?_, hne _ (by decide), by simp [isLetter, hletter]⟩
  simp [isBlank, hne ' ' (by decide), hne '\t' (by decide), hne '\n' (by decide),
    hne '\r' (by decide)]

theorem isNumberChar_of_isDigits {s : List Char} (h : isDigits s = true) :
    ∀ c ∈ s, isNumberChar c = true := by
  rw [isDigits, Bool.and_eq_true, List.all_eq_true] at h
  exact fun c hc => isNumberChar_of_isDigit (h.2 c hc)

theorem isNumberChar_of_isExponentPart {s : List Char} (h : isExponentPart s = true) :
    ∀ c ∈ s, isNumberChar c = true := by
  unfold isExponentPart at h
  split at h
  · exact fun c hc => absurd hc List.not_mem_nil
  · next mark rest =>
      rw [Bool.and_eq_true, Bool.or_eq_true, beq_iff_eq, beq_iff_eq] at h
      obtain ⟨hmark, hrest⟩ := h
      have hfirst : isNumberChar mark = true := by
        rcases hmark with rfl | rfl <;> decide
      refine List.forall_mem_cons.2 ⟨hfirst, ?_⟩
      split at hrest
      · exact List.forall_mem_cons.2 ⟨by decide, isNumberChar_of_isDigits hrest⟩
      · exact List.forall_mem_cons.2 ⟨by decide, isNumberChar_of_isDigits hrest⟩
      · exact isNumberChar_of_isDigits hrest

theorem isNumberChar_of_isFractionPart {s : List Char} (h : isFractionPart s = true) :
    ∀ c ∈ s, isNumberChar c = true := by
  unfold isFractionPart at h
  split at h
  · next rest =>
      obtain ⟨hdigits, hexponent⟩ := Bool.and_eq_true_iff.1 h
      refine List.forall_mem_cons.2 ⟨by decide, ?_⟩
      rw [← List.takeWhile_append_dropWhile (p := Char.isDigit) (l := rest)]
      exact List.forall_mem_append.2
        ⟨isNumberChar_of_isDigits hdigits, isNumberChar_of_isExponentPart hexponent⟩
  · exact isNumberChar_of_isExponentPart h

/-- A number without its sign is a digit and characters of numbers. -/
theorem exists_digit_of_isUnsigned {s : List Char} (h : isUnsigned s = true) :
    ∃ c rest, s = c :: rest ∧ c.isDigit = true ∧ ∀ d ∈ rest, isNumberChar d = true := by
  unfold isUnsigned at h
  split at h
  · next rest => exact ⟨'0', rest, rfl, by decide, isNumberChar_of_isFractionPart h⟩
  · next c rest _ =>
      obtain ⟨hc, hrest⟩ := Bool.and_eq_true_iff.1 h
      refine ⟨c, rest, rfl, hc, ?_⟩
      rw [← List.takeWhile_append_dropWhile (p := Char.isDigit) (l := rest)]
      exact List.forall_mem_append.2
        ⟨fun d hd => isNumberChar_of_isDigit (List.mem_takeWhile_imp hd),
          isNumberChar_of_isFractionPart hrest⟩
  · cases h

theorem exists_first_of_isNumber {s : List Char} (h : isNumber s = true) :
    ∃ c rest, s = c :: rest ∧ (c = '-' ∨ c.isDigit = true) ∧
      ∀ d ∈ rest, isNumberChar d = true := by
  unfold isNumber at h
  split at h
  · next rest =>
      obtain ⟨c, more, rfl, hc, hmore⟩ := exists_digit_of_isUnsigned h
      exact ⟨'-', c :: more, rfl, .inl rfl,
        List.forall_mem_cons.2 ⟨isNumberChar_of_isDigit hc, hmore⟩⟩
  · obtain ⟨c, more, rfl, hc, hmore⟩ := exists_digit_of_isUnsigned h
    exact ⟨c, more, rfl, .inr hc, hmore⟩

/-! ## Tokens -/

theorem tokens?_of_piece? {token : Option Token} (h : piece? c rest = some (token, after)) :
    tokens? (c :: rest) = (tokens? after).map (token.toList ++ ·) := by
  rw [tokens?]
  split
  · next hp => cases h.symm.trans hp
  · next hp =>
      cases h.symm.trans hp
      rfl

theorem tokens?_nil : tokens? [] = some [] := by
  rw [tokens?]

theorem tokens?_blanks {blanks : List Char} (h : ∀ c ∈ blanks, isBlank c = true)
    (rest : List Char) : tokens? (blanks ++ rest) = tokens? rest := by
  induction blanks with
  | nil => rfl
  | cons c more ih =>
      obtain ⟨hc, hmore⟩ := List.forall_mem_cons.1 h
      have hpiece : piece? c (more ++ rest) = some (none, more ++ rest) := by rw [piece?, if_pos hc]
      rw [List.cons_append, tokens?_of_piece? hpiece, ih hmore]
      cases tokens? rest <;> rfl

theorem tokens?_sign (h : Token.ofSign? c = some token) (rest : List Char) :
    tokens? (c :: rest) = (tokens? rest).map (token :: ·) := by
  have hpiece : piece? c rest = some (some token, rest) := by
    have hc : c ∈ ['[', ']', '\x7b', '\x7d', ',', ':'] := by
      by_contra hc
      simp only [List.mem_cons, List.not_mem_nil, or_false, not_or] at hc
      simp [Token.ofSign?, hc] at h
    obtain ⟨hblank, hquote, hletter, hnumber⟩ : isBlank c = false ∧ c ≠ '\x22' ∧
        isLetter c = false ∧ isNumberChar c = false := by
      simp only [List.mem_cons, List.not_mem_nil, or_false] at hc
      rcases hc with rfl | rfl | rfl | rfl | rfl | rfl <;> decide
    simp [piece?, hblank, hquote, hletter, hnumber, h]
  exact tokens?_of_piece? hpiece

theorem tokens?_spellString (text : Option String) (rest : List Char) :
    tokens? (spellString text ++ rest) = (tokens? rest).map (.string text :: ·) := by
  obtain ⟨inner, es, hspell, hread, hstand⟩ := exists_elements_spellString text rest
  have hpiece : piece? '\x22' inner = some (some (.string text), rest) := by
    rw [piece?, if_neg (by decide), if_pos rfl, hread, ← hstand]
    rfl
  rw [hspell]
  exact tokens?_of_piece? hpiece

/-- Whether what comes next cannot belong to a word or number before it. -/
def Breaks (rest : List Char) : Prop :=
  ∀ c ∈ rest.head?, isLetter c = false ∧ isNumberChar c = false

theorem breaks_cons (hletter : isLetter c = false) (hnumber : isNumberChar c = false)
    (rest : List Char) : Breaks (c :: rest) := by
  intro d hd
  cases hd
  exact ⟨hletter, hnumber⟩

theorem takeWhile_append_of_head {p : Char → Bool} {s : List Char} (hs : ∀ c ∈ s, p c = true)
    (hrest : ∀ c ∈ rest.head?, p c = false) :
    (s ++ rest).takeWhile p = s ∧ (s ++ rest).dropWhile p = rest := by
  rw [List.takeWhile_append_of_pos hs, List.dropWhile_append_of_pos hs]
  cases rest with
  | nil => simp
  | cons c rest => simp [hrest c rfl]

theorem tokens?_word {letters : List Char} (h : Token.ofWord? letters = some token)
    (hrest : Breaks rest) : tokens? (letters ++ rest) = (tokens? rest).map (token :: ·) := by
  have hwords : letters ∈
      [['n', 'u', 'l', 'l'], ['t', 'r', 'u', 'e'], ['f', 'a', 'l', 's', 'e']] := by
    by_contra hl
    simp only [List.mem_cons, List.not_mem_nil, or_false, not_or] at hl
    simp [Token.ofWord?, hl] at h
  obtain ⟨hne, hall⟩ : letters ≠ [] ∧
      letters.all (fun c => !isBlank c && c != '\x22' && isLetter c) = true := by
    simp only [List.mem_cons, List.not_mem_nil, or_false] at hwords
    rcases hwords with rfl | rfl | rfl <;> decide
  simp only [List.all_eq_true, Bool.and_eq_true, Bool.not_eq_true', bne_iff_ne] at hall
  obtain ⟨c, more, rfl⟩ := List.exists_cons_of_ne_nil hne
  obtain ⟨⟨⟨hblank, hquote⟩, hletter⟩, hmore⟩ := List.forall_mem_cons.1 hall
  obtain ⟨htake, hdrop⟩ := takeWhile_append_of_head (p := isLetter)
    (fun d hd => (hmore d hd).2) fun d hd => (hrest d hd).1
  have hpiece : piece? c (more ++ rest) = some (some token, rest) := by
    simp [piece?, hblank, hquote, hletter, htake, hdrop, h]
  exact tokens?_of_piece? hpiece

theorem tokens?_number (n : Number) (hrest : Breaks rest) :
    tokens? (n.spelling ++ rest) = (tokens? rest).map (.number n :: ·) := by
  obtain ⟨spelling, valid⟩ := n
  obtain ⟨c, more, rfl, hfirst, hmore⟩ := exists_first_of_isNumber valid
  have hc : (isBlank c = false ∧ c ≠ '\x22' ∧ isLetter c = false) ∧ isNumberChar c = true := by
    rcases hfirst with rfl | hdigit
    · decide
    · exact ⟨starts_number_of_isDigit hdigit, isNumberChar_of_isDigit hdigit⟩
  obtain ⟨⟨hblank, hquote, hletter⟩, hnumber⟩ := hc
  obtain ⟨htake, hdrop⟩ := takeWhile_append_of_head hmore fun d hd => (hrest d hd).2
  have hpiece : piece? c (more ++ rest) = some (some (.number ⟨c :: more, valid⟩), rest) := by
    simp [piece?, hblank, hquote, hletter, hnumber, htake, hdrop, Token.ofNumber?, valid]
  exact tokens?_of_piece? hpiece

end GrammarSampler.Json

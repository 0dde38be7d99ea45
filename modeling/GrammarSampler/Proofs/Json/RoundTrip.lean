import GrammarSampler.Json.Parser
import GrammarSampler.Json.Printer
import GrammarSampler.Proofs.Json.Spelling

/-!
# Values that are read back

A value is read back from the text that is written for it over several lines. Its tokens stand
between the two: they are what the text reads as, and what the value is put together from.
-/

namespace GrammarSampler.Json

/-! ## The tokens of a value -/

mutual

def tokens : Json → List Token
  | .null => [.null]
  | .bool value => [.bool value]
  | .number value => [.number value]
  | .string text => [.string text]
  | .array items => .openArray :: itemTokens items ++ [.closeArray]
  | .object members => .openObject :: memberTokens members ++ [.closeObject]

def itemTokens : List Json → List Token
  | [] => []
  | [item] => tokens item
  | item :: more => tokens item ++ .comma :: itemTokens more

def memberTokens : List (Option String × Json) → List Token
  | [] => []
  | [(key, value)] => .string key :: .colon :: tokens value
  | (key, value) :: more => .string key :: .colon :: tokens value ++ .comma :: memberTokens more

end

theorem itemTokens_cons_cons (item next : Json) (more : List Json) :
    itemTokens (item :: next :: more) = tokens item ++ .comma :: itemTokens (next :: more) := by
  simp [itemTokens]

theorem memberTokens_cons_cons (key : Option String) (value : Json)
    (next : Option String × Json) (more : List (Option String × Json)) :
    memberTokens ((key, value) :: next :: more) =
      .string key :: .colon :: tokens value ++ .comma :: memberTokens (next :: more) := by
  simp [memberTokens]

/-! ## From text to tokens -/

theorem prettyChars_array (level : Nat) (item : Json) (more : List Json) :
    prettyChars level (.array (item :: more)) =
      '[' :: (prettyItems (level + 1) (item :: more) ++ (newLine level ++ [']'])) := by
  simp [prettyChars]

theorem prettyChars_object (level : Nat) (member : Option String × Json)
    (more : List (Option String × Json)) :
    prettyChars level (.object (member :: more)) =
      '\x7b' :: (prettyMembers (level + 1) (member :: more) ++ (newLine level ++ ['\x7d'])) := by
  simp [prettyChars]

theorem prettyItems_cons_cons (level : Nat) (item next : Json) (more : List Json) :
    prettyItems level (item :: next :: more) =
      newLine level ++ (prettyChars level item ++ ',' :: prettyItems level (next :: more)) := by
  simp [prettyItems]

theorem prettyMembers_cons_cons (level : Nat) (key : Option String) (value : Json)
    (next : Option String × Json) (more : List (Option String × Json)) :
    prettyMembers level ((key, value) :: next :: more) =
      newLine level ++ (spellString key ++ ':' :: ' ' ::
        (prettyChars level value ++ ',' :: prettyMembers level (next :: more))) := by
  simp [prettyMembers]

/-- Whether a text reads as some tokens, whatever breaks off after it. -/
def ReadsAs (s : List Char) (list : List Token) : Prop :=
  ∀ rest, Breaks rest → tokens? (s ++ rest) = (tokens? rest).map (list ++ ·)

namespace ReadsAs

variable {s t : List Char} {list more : List Token} {c : Char} {token : Token}

theorem nil : ReadsAs [] [] := by
  intro rest _
  rw [List.nil_append]
  cases tokens? rest <;> rfl

theorem blanks {before : List Char} (hbefore : ∀ c ∈ before, isBlank c = true)
    (h : ReadsAs s list) : ReadsAs (before ++ s) list := by
  intro rest hrest
  rw [List.append_assoc, tokens?_blanks hbefore, h rest hrest]

theorem sign (hc : Token.ofSign? c = some token) (h : ReadsAs s list) :
    ReadsAs (c :: s) (token :: list) := by
  intro rest hrest
  rw [List.cons_append, tokens?_sign hc, h rest hrest, Option.map_map]
  rfl

theorem string (text : Option String) (h : ReadsAs s list) :
    ReadsAs (spellString text ++ s) (.string text :: list) := by
  intro rest hrest
  rw [List.append_assoc, tokens?_spellString, h rest hrest, Option.map_map]
  rfl

theorem word {letters : List Char} (h : Token.ofWord? letters = some token) :
    ReadsAs letters [token] := fun _ hrest => tokens?_word h hrest

theorem number (n : Number) : ReadsAs n.spelling [.number n] := fun _ hrest =>
  tokens?_number n hrest

/-- A sign or a blank breaks off what comes before it. -/
theorem append (hs : ReadsAs s list) (hc : isLetter c = false ∧ isNumberChar c = false)
    (ht : ReadsAs (c :: t) more) : ReadsAs (s ++ c :: t) (list ++ more) := by
  intro rest hrest
  rw [List.append_assoc, List.cons_append, hs _ (breaks_cons hc.1 hc.2 _), ← List.cons_append,
    ht rest hrest, Option.map_map]
  simp only [Function.comp_def, List.append_assoc]

theorem newLine {level : Nat} (h : ReadsAs s list) : ReadsAs (newLine level ++ s) list := by
  refine h.blanks fun c hc => ?_
  rcases List.mem_cons.1 hc with rfl | hc
  · decide
  · rw [List.eq_of_mem_replicate hc]
    decide

end ReadsAs

mutual

theorem readsAs_prettyChars (level : Nat) : (value : Json) →
    ReadsAs (prettyChars level value) (tokens value)
  | .null => by
      rw [prettyChars, tokens]
      exact .word rfl
  | .bool true | .bool false => by
      rw [prettyChars, tokens]
      exact .word rfl
  | .number n => by
      rw [prettyChars, tokens]
      exact .number n
  | .string text => by
      have hstring := ReadsAs.string text .nil
      rw [List.append_nil] at hstring
      rw [prettyChars, tokens]
      exact hstring
  | .array [] => by
      rw [prettyChars, tokens]
      exact .sign rfl (.sign rfl .nil)
  | .array (item :: more) => by
      have hitems := readsAs_prettyItems (level + 1) (item :: more)
      have hclose : ReadsAs (newLine level ++ [']']) [.closeArray] := .newLine (.sign rfl .nil)
      rw [prettyChars_array, tokens]
      exact .sign rfl (hitems.append (by decide) hclose)
  | .object [] => by
      rw [prettyChars, tokens]
      exact .sign rfl (.sign rfl .nil)
  | .object (member :: more) => by
      have hmembers := readsAs_prettyMembers (level + 1) (member :: more)
      have hclose : ReadsAs (newLine level ++ ['\x7d']) [.closeObject] := .newLine (.sign rfl .nil)
      rw [prettyChars_object, tokens]
      exact .sign rfl (hmembers.append (by decide) hclose)

theorem readsAs_prettyItems (level : Nat) : (items : List Json) →
    ReadsAs (prettyItems level items) (itemTokens items)
  | [] => by
      rw [prettyItems, itemTokens]
      exact .nil
  | [item] => by
      rw [prettyItems, itemTokens]
      exact .newLine (readsAs_prettyChars level item)
  | item :: next :: more => by
      have hmore := readsAs_prettyItems level (next :: more)
      rw [prettyItems_cons_cons, itemTokens_cons_cons]
      exact .newLine ((readsAs_prettyChars level item).append (by decide) (.sign rfl hmore))

theorem readsAs_prettyMembers (level : Nat) : (members : List (Option String × Json)) →
    ReadsAs (prettyMembers level members) (memberTokens members)
  | [] => by
      rw [prettyMembers, memberTokens]
      exact .nil
  | [(key, value)] => by
      have hvalue : ReadsAs (' ' :: prettyChars level value) (tokens value) :=
        .blanks (List.forall_mem_singleton.2 rfl) (readsAs_prettyChars level value)
      rw [prettyMembers, List.append_assoc, memberTokens]
      exact .newLine (.string key (.sign rfl hvalue))
  | (key, value) :: next :: more => by
      have hmore := readsAs_prettyMembers level (next :: more)
      have hnext : ReadsAs (',' :: prettyMembers level (next :: more)) _ := .sign rfl hmore
      have hvalue := (readsAs_prettyChars level value).append (by decide) hnext
      rw [prettyMembers_cons_cons, memberTokens_cons_cons]
      exact .newLine (.string key (.sign rfl (.blanks (List.forall_mem_singleton.2 rfl) hvalue)))

end

/-! ## From tokens to values -/

/-- A token that may come first in a value. -/
theorem exists_tokens_eq (value : Json) :
    ∃ token more, tokens value = token :: more ∧ token ≠ .closeArray := by
  cases value <;> rw [tokens] <;> exact ⟨_, _, rfl, by simp⟩

variable {stack : List Frame} {rest : List Token}

/-- An array that holds something goes on with a value. -/
theorem foldlM_arrayStart (item : Json) (items : List Json) :
    (itemTokens (item :: items) ++ rest).foldlM step? (.arrayStart stack) =
      (itemTokens (item :: items) ++ rest).foldlM step? (.value (.array [] :: stack)) := by
  obtain ⟨token, more, htokens, hne⟩ := exists_tokens_eq item
  have hfirst : ∃ after, itemTokens (item :: items) = token :: after := by
    cases items with
    | nil => exact ⟨more, by rw [itemTokens, htokens]⟩
    | cons next items => exact ⟨_, by rw [itemTokens_cons_cons, htokens, List.cons_append]⟩
  obtain ⟨after, hafter⟩ := hfirst
  have hstep : step? (.arrayStart stack) token = step? (.value (.array [] :: stack)) token := by
    cases token <;> first | rfl | exact absurd rfl hne
  rw [hafter, List.cons_append, List.foldlM_cons, List.foldlM_cons, hstep]

theorem foldlM_objectStart (member : Option String × Json)
    (members : List (Option String × Json)) :
    (memberTokens (member :: members) ++ rest).foldlM step? (.objectStart stack) =
      (memberTokens (member :: members) ++ rest).foldlM step? (.key [] stack) := by
  cases members with
  | nil => rw [memberTokens]; rfl
  | cons next members => rw [memberTokens_cons_cons]; rfl

mutual

/-- The tokens of a value hand it to the container in which it stands. -/
theorem foldlM_tokens (stack : List Frame) (rest : List Token) : (value : Json) →
    (tokens value ++ rest).foldlM step? (.value stack) = rest.foldlM step? (deliver value stack)
  | .null | .bool _ | .number _ | .string _ | .array [] | .object [] => by
      rw [tokens]
      rfl
  | .array (item :: items) => by
      have hitems := foldlM_itemTokens [] stack rest (item :: items) (List.cons_ne_nil _ _)
      rw [← foldlM_arrayStart] at hitems
      rw [tokens, List.append_assoc]
      exact hitems
  | .object (member :: members) => by
      have hmembers := foldlM_memberTokens [] stack rest (member :: members) (List.cons_ne_nil _ _)
      rw [← foldlM_objectStart] at hmembers
      rw [tokens, List.append_assoc]
      exact hmembers

theorem foldlM_itemTokens (done : List Json) (stack : List Frame) (rest : List Token) :
    (items : List Json) → items ≠ [] →
      (itemTokens items ++ .closeArray :: rest).foldlM step? (.value (.array done :: stack)) =
        rest.foldlM step? (deliver (.array (done.reverse ++ items)) stack)
  | [], h => absurd rfl h
  | [item], _ => by
      rw [itemTokens, foldlM_tokens, ← List.reverse_cons]
      rfl
  | item :: next :: items, _ => by
      have hmore := foldlM_itemTokens (item :: done) stack rest (next :: items)
        (List.cons_ne_nil _ _)
      rw [List.reverse_cons, List.append_assoc, List.singleton_append] at hmore
      rw [itemTokens_cons_cons, List.append_assoc, foldlM_tokens, ← hmore]
      rfl

theorem foldlM_memberTokens (done : List (Option String × Json)) (stack : List Frame)
    (rest : List Token) : (members : List (Option String × Json)) → members ≠ [] →
      (memberTokens members ++ .closeObject :: rest).foldlM step? (.key done stack) =
        rest.foldlM step? (deliver (.object (done.reverse ++ members)) stack)
  | [], h => absurd rfl h
  | [(key, value)], _ => by
      have hvalue := foldlM_tokens (.object done key :: stack) (.closeObject :: rest) value
      rw [memberTokens, ← List.reverse_cons]
      exact hvalue
  | (key, value) :: next :: members, _ => by
      have hmore := foldlM_memberTokens ((key, value) :: done) stack rest (next :: members)
        (List.cons_ne_nil _ _)
      have hvalue := foldlM_tokens (.object done key :: stack)
        (.comma :: (memberTokens (next :: members) ++ .closeObject :: rest)) value
      rw [List.reverse_cons, List.append_assoc, List.singleton_append] at hmore
      rw [memberTokens_cons_cons, List.append_assoc, ← hmore]
      exact hvalue

end

/-! ## Round trip -/

theorem ofTokens?_tokens (value : Json) : ofTokens? (tokens value) = some value := by
  have hfold := foldlM_tokens [] [] value
  rw [List.append_nil] at hfold
  rw [ofTokens?, hfold]
  rfl

/-- Every value is read back from its text over several lines. -/
theorem parse?_pretty (value : Json) : parse? value.pretty = some value := by
  have hread := readsAs_prettyChars 0 value [] (fun _ h => nomatch h)
  rw [List.append_nil, tokens?_nil, Option.map_some, List.append_nil] at hread
  rw [parse?, pretty, String.toList_ofList, hread]
  exact ofTokens?_tokens value

end GrammarSampler.Json

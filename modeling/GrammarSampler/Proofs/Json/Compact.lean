import GrammarSampler.Proofs.Json.RoundTrip

/-!
# Values on one line that are read back

On one line a value has the same tokens as over several lines, so it is read back from there too.
-/

namespace GrammarSampler.Json

theorem compactItems_cons_cons (item next : Json) (more : List Json) :
    compactItems (item :: next :: more) =
      compactChars item ++ ',' :: compactItems (next :: more) := by
  simp [compactItems]

theorem compactMembers_cons_cons (key : Option String) (value : Json)
    (next : Option String × Json) (more : List (Option String × Json)) :
    compactMembers ((key, value) :: next :: more) =
      spellString key ++ ':' :: (compactChars value ++ ',' :: compactMembers (next :: more)) := by
  simp [compactMembers]

mutual

theorem readsAs_compactChars : (value : Json) → ReadsAs (compactChars value) (tokens value)
  | .null | .bool true | .bool false => by
      rw [compactChars, tokens]
      exact .word rfl
  | .number n => by
      rw [compactChars, tokens]
      exact .number n
  | .string text => by
      have hstring := ReadsAs.string text .nil
      rw [List.append_nil] at hstring
      rw [compactChars, tokens]
      exact hstring
  | .array items => by
      have hclose : ReadsAs [']'] [.closeArray] := .sign rfl .nil
      rw [compactChars, tokens]
      exact .sign rfl ((readsAs_compactItems items).append (by decide) hclose)
  | .object members => by
      have hclose : ReadsAs ['\x7d'] [.closeObject] := .sign rfl .nil
      rw [compactChars, tokens]
      exact .sign rfl ((readsAs_compactMembers members).append (by decide) hclose)

theorem readsAs_compactItems : (items : List Json) →
    ReadsAs (compactItems items) (itemTokens items)
  | [] => by
      rw [compactItems, itemTokens]
      exact .nil
  | [item] => by
      rw [compactItems, itemTokens]
      exact readsAs_compactChars item
  | item :: next :: more => by
      have hmore := readsAs_compactItems (next :: more)
      rw [compactItems_cons_cons, itemTokens_cons_cons]
      exact (readsAs_compactChars item).append (by decide) (.sign rfl hmore)

theorem readsAs_compactMembers : (members : List (Option String × Json)) →
    ReadsAs (compactMembers members) (memberTokens members)
  | [] => by
      rw [compactMembers, memberTokens]
      exact .nil
  | [(key, value)] => by
      rw [compactMembers, memberTokens]
      exact .string key (.sign rfl (readsAs_compactChars value))
  | (key, value) :: next :: more => by
      have hmore := readsAs_compactMembers (next :: more)
      have hnext : ReadsAs (',' :: compactMembers (next :: more)) _ := .sign rfl hmore
      rw [compactMembers_cons_cons, memberTokens_cons_cons]
      exact .string key (.sign rfl ((readsAs_compactChars value).append (by decide) hnext))

end

/-- Every value is read back from its text on one line. -/
theorem parse?_compact (value : Json) : parse? value.compact = some value := by
  have hread := readsAs_compactChars value [] (fun _ h => nomatch h)
  rw [List.append_nil, tokens?_nil, Option.map_some, List.append_nil] at hread
  rw [parse?, compact, String.toList_ofList, hread]
  exact ofTokens?_tokens value

end GrammarSampler.Json

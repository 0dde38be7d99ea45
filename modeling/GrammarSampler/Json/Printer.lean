import GrammarSampler.Json.Quoted

/-!
# Writing JSON

A value on one line without blanks, or with each item and member on a line of its own.
-/

namespace GrammarSampler.Json

/-! ## On one line -/

mutual

def compactChars : Json → List Char
  | .null => ['n', 'u', 'l', 'l']
  | .bool true => ['t', 'r', 'u', 'e']
  | .bool false => ['f', 'a', 'l', 's', 'e']
  | .number value => value.spelling
  | .string text => spellString text
  | .array items => '[' :: compactItems items ++ [']']
  | .object members => '\x7b' :: compactMembers members ++ ['\x7d']

def compactItems : List Json → List Char
  | [] => []
  | [item] => compactChars item
  | item :: more => compactChars item ++ ',' :: compactItems more

def compactMembers : List (Option String × Json) → List Char
  | [] => []
  | [(key, value)] => spellString key ++ ':' :: compactChars value
  | (key, value) :: more =>
    spellString key ++ ':' :: compactChars value ++ ',' :: compactMembers more

end

def compact (value : Json) : String := String.ofList value.compactChars

/-! ## Over several lines -/

/-- A new line, indented by two spaces for each level. -/
def newLine (level : Nat) : List Char := '\n' :: List.replicate (2 * level) ' '

mutual

def prettyChars (level : Nat) : Json → List Char
  | .null => ['n', 'u', 'l', 'l']
  | .bool true => ['t', 'r', 'u', 'e']
  | .bool false => ['f', 'a', 'l', 's', 'e']
  | .number value => value.spelling
  | .string text => spellString text
  | .array [] => ['[', ']']
  | .array items => '[' :: prettyItems (level + 1) items ++ newLine level ++ [']']
  | .object [] => ['\x7b', '\x7d']
  | .object members => '\x7b' :: prettyMembers (level + 1) members ++ newLine level ++ ['\x7d']

def prettyItems (level : Nat) : List Json → List Char
  | [] => []
  | [item] => newLine level ++ prettyChars level item
  | item :: more => newLine level ++ prettyChars level item ++ ',' :: prettyItems level more

def prettyMembers (level : Nat) : List (Option String × Json) → List Char
  | [] => []
  | [(key, value)] => newLine level ++ spellString key ++ ':' :: ' ' :: prettyChars level value
  | (key, value) :: more =>
    newLine level ++ spellString key ++ ':' :: ' ' :: prettyChars level value ++
      ',' :: prettyMembers level more

end

/-- The value with each item and member on a line of its own. -/
def pretty (value : Json) : String := String.ofList (value.prettyChars 0)

end GrammarSampler.Json

import GrammarSampler.Json.Quoted

/-!
# Reading JSON

A text is cut into signs, words, strings and numbers, without the blanks between them, and a value
is put together token by token. The containers that are still open are held in a list, so a value
may be nested to any depth.
-/

namespace GrammarSampler.Json

/-! ## Tokens -/

inductive Token where
  | openArray
  | closeArray
  | openObject
  | closeObject
  | comma
  | colon
  | null
  | bool (value : Bool)
  | number (value : Number)
  | string (text : Option String)
  deriving DecidableEq

/-- Whether `c` may stand between tokens. -/
def isBlank (c : Char) : Bool := c == ' ' || c == '\t' || c == '\n' || c == '\r'

def isNumberChar (c : Char) : Bool :=
  c.isDigit || c == '-' || c == '+' || c == '.' || c == 'e' || c == 'E'

def isLetter (c : Char) : Bool := 'a' ≤ c && c ≤ 'z'

def Token.ofSign? (c : Char) : Option Token :=
  if c = '[' then some .openArray
  else if c = ']' then some .closeArray
  else if c = '\x7b' then some .openObject
  else if c = '\x7d' then some .closeObject
  else if c = ',' then some .comma
  else if c = ':' then some .colon
  else none

def Token.ofWord? (letters : List Char) : Option Token :=
  if letters = ['n', 'u', 'l', 'l'] then some .null
  else if letters = ['t', 'r', 'u', 'e'] then some (.bool true)
  else if letters = ['f', 'a', 'l', 's', 'e'] then some (.bool false)
  else none

def Token.ofNumber? (spelling : List Char) : Option Token :=
  if h : isNumber spelling = true then some (.number ⟨spelling, h⟩) else none

/-- The token that starts with `c`, if `c` is no blank, and what follows it. -/
def piece? (c : Char) (rest : List Char) : Option (Option Token × List Char) :=
  if isBlank c then some (none, rest)
  else if c = '\x22' then
    (elements rest).map fun (es, after) =>
      (some (.string ((assemble es).map String.ofList)), after)
  else if isLetter c then
    (Token.ofWord? (c :: rest.takeWhile isLetter)).map fun token =>
      (some token, rest.dropWhile isLetter)
  else if isNumberChar c then
    (Token.ofNumber? (c :: rest.takeWhile isNumberChar)).map fun token =>
      (some token, rest.dropWhile isNumberChar)
  else (Token.ofSign? c).map fun token => (some token, rest)

theorem length_of_piece? {c : Char} {rest after : List Char} {token : Option Token}
    (h : piece? c rest = some (token, after)) : after.length ≤ rest.length := by
  have drop (p : Char → Bool) : (rest.dropWhile p).length ≤ rest.length :=
    (List.dropWhile_sublist p).length_le
  unfold piece? at h
  split at h
  · simp only [Option.some.injEq, Prod.mk.injEq] at h
    simp [h.2]
  · split at h
    · simp only [Option.map_eq_some_iff, Prod.mk.injEq] at h
      obtain ⟨r, hr, -, he⟩ := h
      exact he ▸ length_of_elements hr
    · split at h
      · simp only [Option.map_eq_some_iff, Prod.mk.injEq] at h
        obtain ⟨r, hr, -, he⟩ := h
        exact he ▸ drop _
      · split at h
        · simp only [Option.map_eq_some_iff, Prod.mk.injEq] at h
          obtain ⟨r, hr, -, he⟩ := h
          exact he ▸ drop _
        · simp only [Option.map_eq_some_iff, Prod.mk.injEq] at h
          obtain ⟨r, hr, -, he⟩ := h
          simp [he]

/-- The tokens of a text, in order; none if something in it is no token. -/
def tokens? : List Char → Option (List Token)
  | [] => some []
  | c :: rest =>
    match _h : piece? c rest with
    | none => none
    | some (token, after) => (tokens? after).map (token.toList ++ ·)
termination_by s => s.length
decreasing_by
  have := length_of_piece? _h
  simp only [List.length_cons]
  omega

/-! ## Values -/

/-- An open container that waits for a value; what it holds so far stands latest first. -/
inductive Frame where
  | array (items : List Json)
  | object (members : List (Option String × Json)) (key : Option String)

/-- What may come next, inside the open containers `stack`. -/
inductive State where
  | value (stack : List Frame)
  | arrayStart (stack : List Frame)
  | inArray (items : List Json) (stack : List Frame)
  | objectStart (stack : List Frame)
  | key (members : List (Option String × Json)) (stack : List Frame)
  | colon (members : List (Option String × Json)) (key : Option String) (stack : List Frame)
  | inObject (members : List (Option String × Json)) (stack : List Frame)
  | done (value : Json)

/-- Hands a finished value to the innermost open container. -/
def deliver (value : Json) : List Frame → State
  | [] => .done value
  | .array items :: stack => .inArray (value :: items) stack
  | .object members key :: stack => .inObject ((key, value) :: members) stack

/-- What follows a token that starts a value. -/
def begin? (stack : List Frame) : Token → Option State
  | .null => some (deliver .null stack)
  | .bool value => some (deliver (.bool value) stack)
  | .number value => some (deliver (.number value) stack)
  | .string text => some (deliver (.string text) stack)
  | .openArray => some (.arrayStart stack)
  | .openObject => some (.objectStart stack)
  | _ => none

def step? : State → Token → Option State
  | .value stack, token => begin? stack token
  | .arrayStart stack, .closeArray => some (deliver (.array []) stack)
  | .arrayStart stack, token => begin? (.array [] :: stack) token
  | .inArray items stack, .comma => some (.value (.array items :: stack))
  | .inArray items stack, .closeArray => some (deliver (.array items.reverse) stack)
  | .objectStart stack, .closeObject => some (deliver (.object []) stack)
  | .objectStart stack, .string key => some (.colon [] key stack)
  | .key members stack, .string key => some (.colon members key stack)
  | .colon members key stack, .colon => some (.value (.object members key :: stack))
  | .inObject members stack, .comma => some (.key members stack)
  | .inObject members stack, .closeObject => some (deliver (.object members.reverse) stack)
  | _, _ => none

/-- The value whose tokens are `tokens`. -/
def ofTokens? (tokens : List Token) : Option Json :=
  match tokens.foldlM step? (.value []) with
  | some (.done value) => some value
  | _ => none

def parse? (source : String) : Option Json := (tokens? source.toList).bind ofTokens?

end GrammarSampler.Json

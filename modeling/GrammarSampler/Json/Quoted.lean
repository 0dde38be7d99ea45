import GrammarSampler.Json.Basic

/-!
# JSON strings

A string is written between double quotes. Inside, a character stands for itself or is written by
an escape; an escape by number gives a unit of UTF-16, so that characters past U+FFFF take two.
-/

namespace GrammarSampler.Json

/-- What a string is spelt of: characters, and units of UTF-16 given by number. -/
inductive Element where
  | char (c : Char)
  | unit (n : Nat)
  deriving DecidableEq, Repr

/-! ## Reading -/

def hexDigit? (c : Char) : Option Nat :=
  if '0' ≤ c ∧ c ≤ '9' then some (c.toNat - '0'.toNat)
  else if 'a' ≤ c ∧ c ≤ 'f' then some (c.toNat - 'a'.toNat + 10)
  else if 'A' ≤ c ∧ c ≤ 'F' then some (c.toNat - 'A'.toNat + 10)
  else none

def hexUnit? (a b c d : Char) : Option Nat :=
  match hexDigit? a, hexDigit? b, hexDigit? c, hexDigit? d with
  | some a, some b, some c, some d => some (((a * 16 + b) * 16 + c) * 16 + d)
  | _, _, _, _ => none

/-- The character that a backslash and `c` stand for. -/
def simpleEscape? (c : Char) : Option Char :=
  if c = '\x22' then some '\x22'
  else if c = '\\' then some '\\'
  else if c = '/' then some '/'
  else if c = 'b' then some '\x08'
  else if c = 'f' then some '\x0c'
  else if c = 'n' then some '\n'
  else if c = 'r' then some '\r'
  else if c = 't' then some '\t'
  else none

/-- The elements up to the closing quote, and what follows it. -/
def elements : List Char → Option (List Element × List Char)
  | [] => none
  | '\\' :: 'u' :: a :: b :: c :: d :: rest =>
    match hexUnit? a b c d, elements rest with
    | some n, some (more, after) => some (.unit n :: more, after)
    | _, _ => none
  | '\\' :: c :: rest =>
    match simpleEscape? c, elements rest with
    | some c, some (more, after) => some (.char c :: more, after)
    | _, _ => none
  | c :: rest =>
    if c = '\x22' then some ([], rest)
    else if c = '\\' ∨ c.toNat < 0x20 then none
    else (elements rest).map fun (more, after) => (.char c :: more, after)

def isHighSurrogate (n : Nat) : Bool := 0xD800 ≤ n && n < 0xDC00

def isLowSurrogate (n : Nat) : Bool := 0xDC00 ≤ n && n < 0xE000

/-- The text that elements stand for, if every surrogate among them is paired. -/
def assemble : List Element → Option (List Char)
  | [] => some []
  | .char c :: rest => (assemble rest).map (c :: ·)
  | .unit n :: rest =>
    if isHighSurrogate n then
      match rest with
      | .unit m :: more =>
        if isLowSurrogate m then
          (assemble more).map (Char.ofNat (0x10000 + (n - 0xD800) * 0x400 + (m - 0xDC00)) :: ·)
        else none
      | _ => none
    else if isLowSurrogate n then none
    else (assemble rest).map (Char.ofNat n :: ·)

theorem length_of_elements {s after : List Char} {es : List Element}
    (h : elements s = some (es, after)) : after.length ≤ s.length := by
  fun_induction elements s generalizing es after with
  | case1 => simp at h
  | case2 a b c d rest n more tail hr hn ih =>
    simp only [Option.some.injEq, Prod.mk.injEq] at h
    have := ih hr
    simp only [List.length_cons, ← h.2]
    omega
  | case3 => simp at h
  | case4 c rest hu c' more tail hr hc ih =>
    simp only [Option.some.injEq, Prod.mk.injEq] at h
    have := ih hr
    simp only [List.length_cons, ← h.2]
    omega
  | case5 => simp at h
  | case6 c rest =>
    simp only [Option.some.injEq, Prod.mk.injEq] at h
    simp [← h.2]
  | case7 => simp at h
  | case8 c rest hu hs hq hc ih =>
    simp only [Option.map_eq_some_iff, Prod.mk.injEq] at h
    obtain ⟨r, hr, -, hafter⟩ := h
    have := ih hr
    simp only [List.length_cons, ← hafter]
    omega

/-! ## Writing -/

def hexDigit (n : Nat) : Char := Nat.digitChar (n % 16)

/-- `c` inside a string: quotes, backslashes and controls are escaped, and nothing else is. -/
def spellChar (c : Char) : List Char :=
  if c = '\x22' then ['\\', '\x22']
  else if c = '\\' then ['\\', '\\']
  else if c = '\x08' then ['\\', 'b']
  else if c = '\t' then ['\\', 't']
  else if c = '\n' then ['\\', 'n']
  else if c = '\x0c' then ['\\', 'f']
  else if c = '\r' then ['\\', 'r']
  else if c.toNat < 0x20 then ['\\', 'u', '0', '0', hexDigit (c.toNat / 16), hexDigit c.toNat]
  else [c]

/-- A string between quotes; one without text is spelt as a single surrogate. -/
def spellString : Option String → List Char
  | some s => '\x22' :: s.toList.flatMap spellChar ++ ['\x22']
  | none => ['\x22', '\\', 'u', 'd', '8', '0', '0', '\x22']

end GrammarSampler.Json

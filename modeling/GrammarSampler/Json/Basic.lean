/-!
# JSON values

A value keeps what a reader may ask about: the members of an object stay in their order and may
repeat a key, and a number keeps its spelling.
-/

namespace GrammarSampler

namespace Json

/-! ## Numbers -/

def isDigits (s : List Char) : Bool := !s.isEmpty && s.all Char.isDigit

/-- Whether `s` may follow the digits of a number: nothing, or an exponent. -/
def isExponentPart : List Char → Bool
  | [] => true
  | mark :: rest =>
    (mark == 'e' || mark == 'E') &&
      match rest with
      | '+' :: digits => isDigits digits
      | '-' :: digits => isDigits digits
      | digits => isDigits digits

/-- Whether `s` may follow the whole part of a number. -/
def isFractionPart : List Char → Bool
  | '.' :: rest =>
    isDigits (rest.takeWhile Char.isDigit) && isExponentPart (rest.dropWhile Char.isDigit)
  | rest => isExponentPart rest

def isUnsigned : List Char → Bool
  | '0' :: rest => isFractionPart rest
  | c :: rest => c.isDigit && isFractionPart (rest.dropWhile Char.isDigit)
  | [] => false

def isNumber : List Char → Bool
  | '-' :: rest => isUnsigned rest
  | rest => isUnsigned rest

structure Number where
  spelling : List Char
  valid : isNumber spelling = true
  deriving DecidableEq

/-- The value of a number without sign, fraction and exponent. -/
def Number.natural? (n : Number) : Option Nat :=
  if n.spelling.all Char.isDigit then some (Nat.ofDigitChars 10 n.spelling 0) else none

end Json

/-! ## Values -/

/--
A JSON value. The text of a string or key is `none` if its escapes hold an unpaired surrogate:
such a string is well formed but stands for no text.
-/
inductive Json where
  | null
  | bool (value : Bool)
  | number (value : Json.Number)
  | string (text : Option String)
  | array (items : List Json)
  | object (members : List (Option String × Json))

namespace Json

/-! ## Making values -/

theorem toDigits_of_pos (n : Nat) (h : 0 < n) :
    ∃ c rest, Nat.toDigits 10 n = c :: rest ∧ c ≠ '0' ∧ c.isDigit = true ∧
      ∀ d ∈ rest, d.isDigit = true := by
  induction n using Nat.strongRecOn with
  | ind n ih =>
    by_cases hn : n < 10
    · have hd : ∀ m : Fin 10, 0 < m.val →
          Nat.digitChar m.val ≠ '0' ∧ (Nat.digitChar m.val).isDigit = true := by decide
      obtain ⟨h0, h1⟩ := hd ⟨n, hn⟩ h
      exact ⟨n.digitChar, [], Nat.toDigits_of_lt_base hn, h0, h1, by simp⟩
    · obtain ⟨c, rest, he, h0, h1, hr⟩ := ih (n / 10) (by omega) (by omega)
      refine ⟨c, rest ++ [(n % 10).digitChar], ?_, h0, h1, fun d hd => ?_⟩
      · rw [Nat.toDigits_of_base_le (by omega) (by omega), he, List.cons_append]
      · rcases List.mem_append.1 hd with hd | hd
        · exact hr d hd
        · suffices hm : d ∈ Nat.toDigits 10 n from
            Nat.isDigit_of_mem_toDigits (by omega) (by omega) hm
          rw [Nat.toDigits_of_base_le (by omega) (by omega)]
          exact List.mem_append_right _ hd

theorem isNumber_toDigits (n : Nat) : isNumber (Nat.toDigits 10 n) = true := by
  by_cases hn : n = 0
  · subst hn; decide
  · obtain ⟨c, rest, he, h0, h1, hr⟩ := toDigits_of_pos n (by omega)
    have hm : c ≠ '-' := by rintro rfl; exact absurd h1 (by decide)
    have hd : rest.dropWhile Char.isDigit = [] := by
      have happ : (rest ++ []).dropWhile Char.isDigit = [] := List.dropWhile_append_of_pos hr
      rwa [List.append_nil] at happ
    rw [he]
    unfold isNumber
    split
    · rename_i heq; exact absurd (List.cons.inj heq).1 hm
    · unfold isUnsigned
      split
      · rename_i heq; exact absurd (List.cons.inj heq).1 h0
      · rename_i heq
        obtain ⟨rfl, rfl⟩ := List.cons.inj heq
        simp [h1, hd, isFractionPart, isExponentPart]
      · rename_i heq; exact absurd heq (by simp)

def nat (n : Nat) : Json := .number ⟨Nat.toDigits 10 n, isNumber_toDigits n⟩

def text (s : String) : Json := .string (some s)

def record (members : List (String × Json)) : Json :=
  .object (members.map fun (key, value) => (some key, value))

/-! ## Taking values apart -/

def text? : Json → Option String
  | .string text => text
  | _ => none

def bool? : Json → Option Bool
  | .bool value => some value
  | _ => none

/-- The value of a whole number that fits in a word of 64 bits. -/
def natural? : Json → Option Nat
  | .number n => n.natural?.filter (· < 1 <<< 64)
  | _ => none

def items? : Json → Option (List Json)
  | .array items => some items
  | _ => none

/-- The members of an object all of whose keys stand for text. -/
def members? : Json → Option (List (String × Json))
  | .object members => members.mapM fun (key, value) => key.map fun key => (key, value)
  | _ => none

end Json

end GrammarSampler

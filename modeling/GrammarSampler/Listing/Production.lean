import GrammarSampler.Grammar.Basic

/-!
# Written rules

Tokens stand between commas and blank characters. A token in angle brackets is taken whole, a
token between single or double quotes may hold anything, and all else runs to the next separator
or bracket. A listing has one line for each rule, and a token that would read differently without
quotes is written in double quotes.
-/

namespace GrammarSampler

namespace Listing

open Text

/-- Why a written rule cannot be read. -/
inductive Cause where
  /-- An angle bracket opens at the start of `rest` and does not close. -/
  | openBracket (rest : List Char)
  /-- The quote that opens `rest` holds a backslash at the very end. -/
  | danglingEscape (rest : List Char)
  /-- The quote that opens `rest` does not close. -/
  | openQuote (rest : List Char)
  /-- The text of a block is not a symbol with its bracketed tokens. -/
  | notARule (text : List Char)
  /-- The source ends inside a block. -/
  | unclosed
  deriving DecidableEq, Repr

def Cause.message : Cause → String
  | .openBracket rest => "unterminated non-terminal in `" ++ String.ofList rest ++ "`"
  | .danglingEscape rest => "dangling escape in `" ++ String.ofList rest ++ "`"
  | .openQuote rest => "unterminated quote in `" ++ String.ofList rest ++ "`"
  | .notARule text => "expected `<symbol> ::= [tokens]`, found `" ++ String.ofList text ++ "`"
  | .unclosed => "rule is missing its closing `]`"

def Cause.fault (line : Nat) (cause : Cause) : Fault := .parse line cause.message

/-! ## Characters -/

/-- Whether `c` may stand between tokens without being part of one. -/
def isSeparator (c : Char) : Bool := c == ',' || isBlank c

def isQuote (c : Char) : Bool := c == '\x22' || c == '\x27'

/-- Whether a token without quotes and brackets ends before `c`. -/
def endsBare (c : Char) : Bool := c == ',' || c == '<' || isBlank c

/-- The character that stands for a backslash followed by `c`. -/
def unescape (c : Char) : Char :=
  if c = 'n' then '\n' else if c = 'r' then '\r' else if c = 't' then '\t' else c

/-! ## Pieces -/

inductive QuoteFault where
  | danglingEscape
  | unterminated
  deriving DecidableEq, Repr

/-- The token up to the closing `quote`, without escapes, and what follows the quote. -/
def quoted (quote : Char) : List Char → Except QuoteFault (List Char × List Char)
  | [] => .error .unterminated
  | c :: rest =>
    if c = '\\' then
      match rest with
      | [] => .error .danglingEscape
      | escaped :: more =>
        (quoted quote more).map fun (token, after) => (unescape escaped :: token, after)
    else if c = quote then .ok ([], rest)
    else (quoted quote rest).map fun (token, after) => (c :: token, after)

/-- The piece that starts with `c`: its token, if it is not a separator, and what follows it. -/
def piece (c : Char) (rest : List Char) : Except Cause (Option (List Char) × List Char) :=
  if isSeparator c then .ok (none, rest)
  else if c = '<' then
    match rest.dropWhile (· != '>') with
    | [] => .error (.openBracket (c :: rest))
    | close :: after => .ok (some (c :: rest.takeWhile (· != '>') ++ [close]), after)
  else if isQuote c then
    match quoted c rest with
    | .error .danglingEscape => .error (.danglingEscape (c :: rest))
    | .error .unterminated => .error (.openQuote (c :: rest))
    | .ok (token, after) => .ok (some token, after)
  else .ok (some (c :: rest.takeWhile (!endsBare ·)), rest.dropWhile (!endsBare ·))

theorem length_dropWhile_le {α : Type} (p : α → Bool) (l : List α) :
    (l.dropWhile p).length ≤ l.length :=
  (List.dropWhile_sublist p).length_le

theorem length_of_quoted {quote : Char} {s token after : List Char}
    (h : quoted quote s = .ok (token, after)) : after.length ≤ s.length := by
  fun_induction quoted quote s generalizing token after with
  | case1 => simp at h
  | case2 => simp at h
  | case3 escaped more ih =>
    cases hq : quoted quote more with
    | error e => simp [hq, Except.map] at h
    | ok r =>
      simp only [hq, Except.map, Except.ok.injEq, Prod.mk.injEq] at h
      have := ih hq
      simp only [List.length_cons, ← h.2]
      omega
  | case4 rest hne =>
    simp only [Except.ok.injEq, Prod.mk.injEq] at h
    simp [← h.2]
  | case5 c rest hne hq ih =>
    cases hr : quoted quote rest with
    | error e => simp [hr, Except.map] at h
    | ok r =>
      simp only [hr, Except.map, Except.ok.injEq, Prod.mk.injEq] at h
      have := ih hr
      simp only [List.length_cons, ← h.2]
      omega

theorem length_of_piece {c : Char} {rest after : List Char} {token : Option (List Char)}
    (h : piece c rest = .ok (token, after)) : after.length ≤ rest.length := by
  unfold piece at h
  split at h
  · simp only [Except.ok.injEq, Prod.mk.injEq] at h
    simp [h.2]
  · split at h
    · split at h
      · simp at h
      · rename_i close more hd
        have := length_dropWhile_le (· != '>') rest
        simp only [Except.ok.injEq, Prod.mk.injEq] at h
        simp only [hd, List.length_cons, h.2] at this
        omega
    · split at h
      · split at h
        · simp at h
        · simp at h
        · rename_i hq
          simp only [Except.ok.injEq, Prod.mk.injEq] at h
          exact length_of_quoted (h.2 ▸ hq)
      · simp only [Except.ok.injEq, Prod.mk.injEq] at h
        exact h.2 ▸ length_dropWhile_le _ rest

/-! ## Bodies -/

def tokens : List Char → Except Cause (List String)
  | [] => .ok []
  | c :: rest =>
    match _h : piece c rest with
    | .error cause => .error cause
    | .ok (token, after) => (tokens after).map (token.toList.map String.ofList ++ ·)
termination_by s => s.length
decreasing_by
  have := length_of_piece _h
  simp only [List.length_cons]
  omega

/-- The rule with the body `body`; a fault is said to be on `line`. -/
def rule (line : Nat) (body : List Char) : Except Fault Rule :=
  match tokens body with
  | .ok tokens => .ok ⟨tokens⟩
  | .error cause => .error (cause.fault line)

/-! ## Writing -/

def escape (c : Char) : List Char :=
  if c = '\\' then ['\\', '\\']
  else if c = '\x22' then ['\\', '\x22']
  else if c = '\n' then ['\\', 'n']
  else if c = '\r' then ['\\', 'r']
  else if c = '\t' then ['\\', 't']
  else [c]

def writeToken (token : String) : List Char :=
  if isPlainlyBracketed token then token.toList
  else '\x22' :: token.toList.flatMap escape ++ ['\x22']

def writeBody (tokens : List String) : List Char := [',', ' '].intercalate (tokens.map writeToken)

def writeRule (rule : Rule) : List Char := '[' :: writeBody rule.tokens ++ [']']

def writeLine (symbol : String) (rule : Rule) : List Char :=
  symbol.toList ++ [' ', ':', ':', '=', ' '] ++ writeRule rule ++ ['\n']

end Listing

def Rule.text (rule : Rule) : String := String.ofList (Listing.writeRule rule)

/-- The grammar as a listing: its symbols in increasing order, and each symbol's rules in theirs. -/
def Grammar.listing (g : Grammar) : String :=
  String.ofList (g.rules.entries.flatMap fun e => e.2.flatMap (Listing.writeLine e.1))

end GrammarSampler

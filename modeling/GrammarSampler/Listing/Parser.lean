import GrammarSampler.Listing.Production

/-!
# Reading a listing

A listing is read line by line. Lines that start with `#` are comments. A rule starts at a line
that is not blank and runs to the first line that ends with a closing square bracket. The blocks of
lines are read in order, so the fault of the earliest block is told.
-/

namespace GrammarSampler

namespace Listing

open Text

/-- The lines of one rule, trimmed and joined by single spaces, and the number of the first. -/
structure Block where
  line : Nat
  text : List Char
  deriving DecidableEq, Repr

namespace Block

def isClosed (b : Block) : Bool := b.text.getLast? == some ']'

def extend (b : Block) (line : List Char) : Block := { b with text := b.text ++ ' ' :: line }

/-- The symbol and the body of a block of the form `<symbol> ::= [body]`. -/
def split? (b : Block) : Option (List Char × List Char) :=
  match b.text with
  | '<' :: rest =>
    match rest.takeWhile (· != '>'), rest.dropWhile (· != '>') with
    | c :: name, '>' :: sign =>
      match sign.dropWhile isBlank with
      | ':' :: ':' :: '=' :: bracket =>
        match bracket.dropWhile isBlank with
        | '[' :: body =>
          if body.getLast? = some ']' then some ('<' :: c :: name ++ ['>'], body.dropLast) else none
        | _ => none
      | _ => none
    | _, _ => none
  | _ => none

/-- The symbol and the rule of a block. -/
def read (b : Block) : Except Fault (String × Rule) :=
  match b.split? with
  | none => .error ((Cause.notARule b.text).fault b.line)
  | some (symbol, body) => (rule b.line body).map fun rule => (String.ofList symbol, rule)

end Block

/-- The blocks of a source: the closed ones in order, and the last one if it does not close. -/
structure Layout where
  closed : List Block
  unclosed : Option Block
  deriving DecidableEq, Repr

/-- Whether a trimmed line is a comment. -/
def isComment (line : List Char) : Bool := line.head? == some '#'

/-- The block that a line which is no comment begins or continues. -/
def Block.resume (current : Option Block) (n : Nat) (text : List Char) : Block :=
  match current with
  | none => ⟨n, text⟩
  | some b => b.extend text

/-- The blocks of the lines from number `n` on, where the lines before leave `current` open. -/
def layout (current : Option Block) (n : Nat) : List (List Char) → Layout
  | [] => ⟨[], current⟩
  | line :: more =>
    let text := trim line
    if isComment text || (current.isNone && text.isEmpty) then layout current (n + 1) more
    else
      let b := Block.resume current n text
      if b.isClosed then
        let rest := layout none (n + 1) more
        ⟨b :: rest.closed, rest.unclosed⟩
      else layout (some b) (n + 1) more

/-! ## Grammars of blocks -/

def addBlocks (g : Grammar) : List Block → Except Fault Grammar
  | [] => .ok g
  | b :: more =>
    match b.read with
    | .error fault => .error fault
    | .ok (symbol, rule) => addBlocks (g.append symbol rule) more

/-- The grammar of the blocks of a source, all of which have to be closed. -/
def Layout.grammar (l : Layout) : Except Fault Grammar :=
  match addBlocks ∅ l.closed, l.unclosed with
  | .error fault, _ => .error fault
  | .ok _, some b => .error (Cause.unclosed.fault b.line)
  | .ok g, none => .ok g

end Listing

/-- The rule whose body is `body`, as between the square brackets of a listing. -/
def Rule.ofBody (line : Nat) (body : String) : Except Fault Rule := Listing.rule line body.toList

def Grammar.ofListing (source : String) : Except Fault Grammar :=
  (Listing.layout none 1 (Text.lines source.toList)).grammar

end GrammarSampler

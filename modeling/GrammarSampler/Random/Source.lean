import GrammarSampler.Random.Keystream

/-!
# Random sources

Where chance comes from: a keystream, or a list of words that is given beforehand. Choices that are
even are made from the words.
-/

namespace GrammarSampler

/-- A supply of words of 64 bits. -/
inductive Supply where
  /-- The words in turn, and after them zero for ever. -/
  | script (words : List UInt64)
  | stream (place : Keystream)
  deriving DecidableEq, Repr

inductive Width where
  | w32
  | w64
  deriving DecidableEq, Repr

def Width.bits : Width → Nat
  | .w32 => 32
  | .w64 => 64

namespace Supply

/-- The next word of 32 bits. A script gives the low half of its next word. -/
def next32 : Supply → UInt32 × Supply
  | .script [] => (0, .script [])
  | .script (word :: more) => (word.toUInt32, .script more)
  | .stream place => let (word, after) := place.next; (word, .stream after)

/-- The next word of 64 bits. A stream gives the low half first. -/
def next64 : Supply → UInt64 × Supply
  | .script [] => (0, .script [])
  | .script (word :: more) => (word, .script more)
  | .stream place =>
    let (low, middle) := place.next
    let (high, after) := middle.next
    (low.toUInt64 ||| (high.toUInt64 <<< 32), .stream after)

/-- So many words in a row show everything that the supply will ever give. -/
def horizon : Supply → Nat
  | .script words => words.length + 1
  | .stream _ => Keystream.period

end Supply

/-- A supply, and how many words of each width have been taken from it. -/
structure Source where
  supply : Supply
  drawn32 : Nat := 0
  drawn64 : Nat := 0
  deriving DecidableEq, Repr

namespace Source

def ofSeed (seed : UInt64) : Source := { supply := .stream (.ofSeed seed) }

def ofScript (words : List UInt64) : Source := { supply := .script words }

def next32 (s : Source) : UInt32 × Source :=
  let (word, supply) := s.supply.next32
  (word, { s with supply, drawn32 := s.drawn32 + 1 })

def next64 (s : Source) : UInt64 × Source :=
  let (word, supply) := s.supply.next64
  (word, { s with supply, drawn64 := s.drawn64 + 1 })

def next (w : Width) (s : Source) : Nat × Source :=
  match w with
  | .w32 => let (word, after) := s.next32; (word.toNat, after)
  | .w64 => let (word, after) := s.next64; (word.toNat, after)

end Source

/-!
## Even choices

A word is turned into a number below `n` by multiplying: the high half of the product is the
number, and words whose low half lies past a zone are drawn again. The zone is the greatest
multiple of `n` by a power of two that fits in a word, so every number is hit by equally many
words.
-/

/-- The last low half that counts, among words of `bits` bits. -/
def zone (bits n : Nat) : Nat := (n <<< (bits - (n.log2 + 1))) - 1

/-- The width of the words that choose a place in a list. -/
def Width.ofLength (length : Nat) : Width := if length < 1 <<< 32 then .w32 else .w64

/-- The number below `n` that a word stands for, if it stands for one. -/
def accept? (bits n word : Nat) : Option Nat :=
  let product := word * n
  if product % (1 <<< bits) ≤ zone bits n then some (product >>> bits) else none

namespace Source

/-- Draws up to `tries` words until one stands for a number below `n`. -/
def belowWithin (w : Width) (n : Nat) : Nat → Source → Option (Nat × Source)
  | 0, _ => none
  | tries + 1, s =>
    let (word, after) := s.next w
    match accept? w.bits n word with
    | some i => some (i, after)
    | none => belowWithin w n tries after

/--
A number below `n`, all of which are equally likely, for `n` of at most the bits of `w` and not
zero. There is none if no word that the source will ever give stands for a number below `n`.
-/
def below (w : Width) (n : Nat) (s : Source) : Option (Nat × Source) :=
  s.belowWithin w n s.supply.horizon

end Source

end GrammarSampler

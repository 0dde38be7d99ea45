/-!
# Keystreams

The ChaCha stream with twelve rounds, a counter of 64 bits from zero and no nonce, as one stream
of words of 32 bits. A seed of 64 bits is stretched to a key.
-/

namespace GrammarSampler

abbrev KeyBlock := Vector UInt32 16

namespace KeyBlock

def rotate (x n : UInt32) : UInt32 := (x <<< n) ||| (x >>> (32 - n))

def quarterRound (a b c d : Fin 16) (v : KeyBlock) : KeyBlock :=
  let xa := v[a] + v[b]
  let xd := rotate (v[d] ^^^ xa) 16
  let xc := v[c] + xd
  let xb := rotate (v[b] ^^^ xc) 12
  let xa := xa + xb
  let xd := rotate (xd ^^^ xa) 8
  let xc := xc + xd
  let xb := rotate (xb ^^^ xc) 7
  (((v.set a xa).set b xb).set c xc).set d xd

/-- Mixes the columns of the four by four square, and then its diagonals. -/
def doubleRound (v : KeyBlock) : KeyBlock :=
  v |> quarterRound 0 4 8 12 |> quarterRound 1 5 9 13 |> quarterRound 2 6 10 14
    |> quarterRound 3 7 11 15 |> quarterRound 0 5 10 15 |> quarterRound 1 6 11 12
    |> quarterRound 2 7 8 13 |> quarterRound 3 4 9 14

/-- The block before mixing: four constants, the key, the counter and an empty nonce. -/
def start (key : Vector UInt32 8) (counter : UInt64) : KeyBlock :=
  (#v[0x61707865, 0x3320646e, 0x79622d32, 0x6b206574] : Vector UInt32 4) ++ key ++
    (#v[counter.toUInt32, (counter >>> 32).toUInt32, 0, 0] : Vector UInt32 4)

/-- Six double rounds, and then the block before mixing added word by word. -/
def finish (v : KeyBlock) : KeyBlock :=
  Vector.zipWith (· + ·) v (Nat.repeat doubleRound 6 v)

end KeyBlock

/-- A place in the stream of a key. -/
structure Keystream where
  key : Vector UInt32 8
  /-- The number of the next block. -/
  counter : UInt64 := 0
  /-- The words of the present block that have not been taken. -/
  unread : List UInt32 := []
  deriving DecidableEq, Repr

namespace Keystream

/-- How many words the stream has before it repeats. -/
def period : Nat := 1 <<< 68

def next (k : Keystream) : UInt32 × Keystream :=
  match k.unread with
  | word :: more => (word, { k with unread := more })
  | [] =>
    let block := (KeyBlock.start k.key k.counter).finish
    (block[0], { k with counter := k.counter + 1, unread := block.toList.tail })

/-! ## Seeds -/

/-- The next state of the generator that stretches a seed. -/
def stretch (state : UInt64) : UInt64 := state * 6364136223846793005 + 11634580027462260723

/-- The word that a state gives: high bits folded into low ones, turned by the highest five. -/
def stretchedWord (state : UInt64) : UInt32 :=
  let folded := (((state >>> 18) ^^^ state) >>> 27).toUInt32
  let turn := (state >>> 59).toUInt32
  (folded >>> turn) ||| (folded <<< (32 - turn))

def stretched (seed : UInt64) : Nat → List UInt32
  | 0 => []
  | n + 1 => let state := stretch seed; stretchedWord state :: stretched state n

/-- The start of the stream whose key stretches `seed`. -/
def ofSeed (seed : UInt64) : Keystream :=
  { key := Vector.ofFn fun i => (stretched seed 8)[i.val]?.getD 0 }

end Keystream

end GrammarSampler

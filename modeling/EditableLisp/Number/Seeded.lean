import EditableLisp.Number.Basic

/-!
# Numbers fixed by a seed

A random number is fixed by its seed. The generator is a parameter (`Generator`), of which nothing is asked but that
it is a function. The one that runs is `Seeded.standard`: a 64-bit seed is stretched to eight 32-bit words by a
permuted congruential generator. The words key a ChaCha stream of twelve rounds with block counter and stream number
zero, and the first two output words give 53 bits of a number in `[0, 1)`.
-/

namespace EditableLisp.Number

/-- A generator of random numbers. -/
class Generator where
  /-- The number in `[0, 1)` that a seed fixes. -/
  unit : UInt64 → Number

namespace Seeded

/-- The bits of a word moved to the left, those that fall off coming in at the right. -/
def rotateLeft (x : UInt32) (n : UInt32) : UInt32 := (x <<< n) ||| (x >>> (32 - n))

/-- The bits of a word moved to the right, those that fall off coming in at the left. -/
def rotateRight (x : UInt32) (n : UInt32) : UInt32 := (x >>> n) ||| (x <<< ((32 - n) % 32))

/-- One step of the congruential generator that stretches a seed. -/
def advance (state : UInt64) : UInt64 := state * 6364136223846793005 + 11634580027462260723

/-- The output word of a state of the congruential generator. -/
def permute (state : UInt64) : UInt32 :=
  rotateRight (((state >>> 18) ^^^ state) >>> 27).toUInt32 (state >>> 59).toUInt32

/-- The next `n` words after a state. -/
def stretch (state : UInt64) : Nat → List UInt32
  | 0 => []
  | n + 1 =>
    let state := advance state
    permute state :: stretch state n

/-- The state of a stream: sixteen words. -/
abbrev Block := Array UInt32

/-- The word of a block at `i`, zero outside. -/
def word (b : Block) (i : Nat) : UInt32 := b.getD i 0

/-- Adds the word at `j` to that at `i` and turns the word at `k` by the result. -/
def mix (i j k : Nat) (turn : UInt32) (b : Block) : Block :=
  let sum := word b i + word b j
  let b := b.setIfInBounds i sum
  b.setIfInBounds k (rotateLeft (word b k ^^^ sum) turn)

/-- A quarter round on four words of a block. -/
def quarterRound (i j k l : Nat) (b : Block) : Block :=
  mix k l j 7 (mix i j l 8 (mix k l j 12 (mix i j l 16 b)))

/-- A round on the columns and a round on the diagonals. -/
def doubleRound (b : Block) : Block :=
  let b := quarterRound 3 7 11 15 (quarterRound 2 6 10 14 (quarterRound 1 5 9 13 (quarterRound 0 4 8 12 b)))
  quarterRound 3 4 9 14 (quarterRound 2 7 8 13 (quarterRound 1 6 11 12 (quarterRound 0 5 10 15 b)))

/-- `n` double rounds. -/
def doubleRounds (b : Block) : Nat → Block
  | 0 => b
  | n + 1 => doubleRounds (doubleRound b) n

/-- The first block of a stream before its rounds: four constants, the key, the counter and the stream
number. -/
def initialBlock (key : List UInt32) : Block :=
  ([0x61707865, 0x3320646e, 0x79622d32, 0x6b206574] ++ key ++ [0, 0, 0, 0]).toArray

/-- The first block of a stream. -/
def firstBlock (key : List UInt32) : Block :=
  let start := initialBlock key
  Array.zipWith (· + ·) (doubleRounds start 6) start

/-- The number in `[0, 1)` that a seed fixes. -/
def unit (seed : UInt64) : Number :=
  let block := firstBlock (stretch seed 8)
  let bits := (word block 0).toUInt64 ||| ((word block 1).toUInt64 <<< 32)
  ofFloat ((bits >>> 11).toFloat * Float.ofScientific 11102230246251565404 true 35)

/-- The generator that runs. -/
instance standard : Generator := ⟨unit⟩

/-- A seed made of a text: its bytes folded into a 64-bit hash. -/
def ofText (text : String) : UInt64 :=
  text.toUTF8.toList.foldl (fun hash b => (hash ^^^ b.toUInt64) * 0x100000001b3) 0xcbf29ce484222325

end Seeded

end EditableLisp.Number

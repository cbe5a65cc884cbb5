import StochasticGrammar.Random.Source

/-!
The ChaCha stream with twelve rounds, a block counter of 64 bits and no nonce, and its key from a
seed. Words of 64 bits are two words of the stream, the low one first.
-/

namespace StochasticGrammar

namespace ChaCha

def rotate (x : UInt32) (n : UInt32) : UInt32 := (x <<< n) ||| (x >>> (32 - n))

abbrev Block := Array UInt32

def word (block : Block) (i : Nat) : UInt32 := block[i]?.getD 0

def quarter (block : Block) (a b c d : Nat) : Block :=
  let mix (block : Block) (x y z : Nat) (turn : UInt32) : Block :=
    let sum := word block x + word block y
    let block := block.setIfInBounds x sum
    block.setIfInBounds z (rotate (word block z ^^^ sum) turn)
  let block := mix block a b d 16
  let block := mix block c d b 12
  let block := mix block a b d 8
  mix block c d b 7

def doubleRound (block : Block) : Block :=
  let block := quarter block 0 4 8 12
  let block := quarter block 1 5 9 13
  let block := quarter block 2 6 10 14
  let block := quarter block 3 7 11 15
  let block := quarter block 0 5 10 15
  let block := quarter block 1 6 11 12
  let block := quarter block 2 7 8 13
  quarter block 3 4 9 14

def constants : Block := #[0x61707865, 0x3320646e, 0x79622d32, 0x6b206574]

def initial (key : Array UInt32) (counter : UInt64) : Block :=
  constants ++ key ++ #[counter.toUInt32, (counter >>> 32).toUInt32, 0, 0]

def block (key : Array UInt32) (counter : UInt64) : Block :=
  let start := initial key counter
  Array.zipWith (· + ·) start (Nat.repeat doubleRound 6 start)

/-- One step of the generator that stretches a seed into a key. -/
def seedStep (state : UInt64) : UInt32 × UInt64 :=
  let state := state * 6364136223846793005 + 11634580027462260723
  let x := (((state >>> 18) ^^^ state) >>> 27).toUInt32
  let turn := (state >>> 59).toUInt32
  ((x >>> turn) ||| (x <<< ((32 - turn) &&& 31)), state)

def keyWords : Nat → UInt64 → List UInt32
  | 0, _ => []
  | n + 1, state =>
    let (x, state) := seedStep state
    x :: keyWords n state

end ChaCha

structure ChaCha where
  key : Array UInt32
  /-- The number of the next block. -/
  counter : UInt64
  /-- What is left of the block before it. -/
  pending : List UInt32
  deriving DecidableEq, Repr

namespace ChaCha

def ofSeed (seed : UInt64) : ChaCha := ⟨(keyWords 8 seed).toArray, 0, []⟩

def next32 (source : ChaCha) : UInt32 × ChaCha :=
  match source.pending with
  | x :: pending => (x, { source with pending })
  | [] =>
    match (block source.key source.counter).toList with
    | x :: pending => (x, { source with counter := source.counter + 1, pending })
    | [] => (0, source)

def next64 (source : ChaCha) : UInt64 × ChaCha :=
  let (low, source) := source.next32
  let (high, source) := source.next32
  (high.toUInt64 <<< 32 ||| low.toUInt64, source)

instance : RandomSource ChaCha := ⟨next64, next32⟩

end ChaCha

end StochasticGrammar

import StochasticGrammar.Random.ChaCha

/-!
The sources at hand: given words over and over, the SplitMix generator, and the ChaCha stream.
-/

namespace StochasticGrammar

inductive Generator where
  | words (words : Array UInt64) (next : Nat)
  | splitMix (state : UInt64)
  | chaCha (source : ChaCha)
  deriving DecidableEq, Repr

namespace Generator

instance : Inhabited Generator := ⟨splitMix 0⟩

def splitMixWord (state : UInt64) : UInt64 :=
  let z := (state ^^^ (state >>> 30)) * 0xbf58476d1ce4e5b9
  let z := (z ^^^ (z >>> 27)) * 0x94d049bb133111eb
  z ^^^ (z >>> 31)

def next64 : Generator → UInt64 × Generator
  | words ws next => (ws[next]?.getD 0, words ws ((next + 1) % ws.size))
  | splitMix state =>
    let state := state + 0x9e3779b97f4a7c15
    (splitMixWord state, splitMix state)
  | chaCha source =>
    let (word, source) := source.next64
    (word, chaCha source)

/-- Sources of 64-bit words give the low half of a word. -/
def next32 : Generator → UInt32 × Generator
  | chaCha source =>
    let (word, source) := source.next32
    (word, chaCha source)
  | source =>
    let (word, source) := source.next64
    (word.toUInt32, source)

instance : RandomSource Generator := ⟨next64, next32⟩

def ofSeed (seed : UInt64) : Generator := chaCha (.ofSeed seed)

end Generator

end StochasticGrammar

/-!
Sources of random words. A source gives words of 64 or of 32 bits; whatever is drawn from it depends
on it through these alone.
-/

namespace StochasticGrammar

class RandomSource (σ : Type) where
  next64 : σ → UInt64 × σ
  next32 : σ → UInt32 × σ

namespace RandomSource

variable {σ : Type} [RandomSource σ]

/-- The upper 53 bits of a word as a fraction of one. -/
def unit (word : UInt64) : Float := (word >>> 11).toFloat * 1.1102230246251565e-16

def nextUnit (source : σ) : Float × σ :=
  let (word, source) := next64 source
  (unit word, source)

/-- The highest low part of a product that is accepted: past the last whole multiple of `range` words
are drawn anew. -/
def zone (bits range : Nat) : Nat := (range <<< (bits - 1 - range.log2)) - 1

/-- Words of a fixed number of bits. -/
structure Words (σ : Type) where
  bits : Nat
  next : σ → Nat × σ

/-- The high part of the product of `range` and a word, the first one whose product has its low part in
the zone. With a source that has no such word the search does not end. -/
def Words.below (words : Words σ) (range : Nat) (source : σ) : Option (Nat × σ) :=
  let (word, source) := words.next source
  let product := word * range
  if product % (1 <<< words.bits) ≤ zone words.bits range then some (product >>> words.bits, source)
  else words |>.below range source
partial_fixpoint

def words32 : Words σ where
  bits := 32
  next source :=
    let (word, source) := next32 source
    (word.toNat, source)

def words64 : Words σ where
  bits := 64
  next source :=
    let (word, source) := next64 source
    (word.toNat, source)

/-- Shorter words are used for a bound that fits into them. -/
def nextIndex (bound : Nat) (source : σ) : Option (Nat × σ) :=
  if bound ≤ 0xffffffff then words32.below bound source else words64.below bound source

/-- Exchanges each of the first `n + 1` items, the last one first, with one at or before it. -/
def shuffleFirst {α : Type} : (n : Nat) → Array α → σ → Option (Array α × σ)
  | 0, items, source => some (items, source)
  | n + 1, items, source => do
    let (other, source) ← nextIndex (n + 2) source
    shuffleFirst n (items.swapIfInBounds (n + 1) other) source

def shuffle {α : Type} (items : Array α) (source : σ) : Option (Array α × σ) :=
  shuffleFirst (items.size - 1) items source

end RandomSource

end StochasticGrammar

import StochasticGrammar.Decimal.Magnitude

/-!
The fewest decimal digits that read back to the same double. The reals that round to a double form
an interval around it; of the decimal grids, coarsest first, the first one with a point in that
interval gives the digits. A grid with any point in the interval has one of the two neighbours of
the value in it, so only those two are tried.
-/

namespace StochasticGrammar.Decimal

inductive Tie where
  | up
  | even
  deriving DecidableEq, Repr

/-- The number `digits * 10 ^ exponent`. -/
structure Digits where
  digits : Nat
  exponent : Int
  deriving DecidableEq, Repr

def trimZeros (digits : Nat) (exponent : Int) : Digits :=
  if h : 0 < digits ∧ digits % 10 = 0 then trimZeros (digits / 10) (exponent + 1)
  else ⟨digits, exponent⟩
termination_by digits
decreasing_by omega

/-- Half of the distance to the neighbours of a double, counted in quarters of its last place:
below a power of two the next double is half as far. -/
def Magnitude.gapBelow (v : Magnitude) : Nat :=
  if v.mantissa = 0x10000000000000 ∧ -1074 < v.exponent then 1 else 2

/-- The interval that rounds to `v`; its ends belong to it when the mantissa is even. -/
def Magnitude.contains (v : Magnitude) (q : Ratio) : Bool :=
  let low := Ratio.shift ⟨4 * v.mantissa - v.gapBelow, 1⟩ 2 (v.exponent - 2)
  let high := Ratio.shift ⟨4 * v.mantissa + 2, 1⟩ 2 (v.exponent - 2)
  if v.mantissa % 2 = 0 then
    decide (low.num * q.den ≤ q.num * low.den) && decide (q.num * high.den ≤ high.num * q.den)
  else
    decide (low.num * q.den < q.num * low.den) && decide (q.num * high.den < high.num * q.den)

def nearer (tie : Tie) (q : Ratio) : Nat :=
  let below := q.floor
  let doubled := 2 * (q.num % q.den)
  if doubled < q.den then below
  else if q.den < doubled then below + 1
  else match tie with
    | .up => below + 1
    | .even => below + below % 2

def Magnitude.pick (v : Magnitude) (tie : Tie) (grid : Int) : Option Digits :=
  let scaled := v.ratio.onGrid grid
  let below := scaled.floor
  let fits (n : Nat) : Bool := v.contains (Ratio.shift ⟨n, 1⟩ 10 grid)
  match fits below, fits (below + 1) with
  | true, true => some ⟨nearer tie scaled, grid⟩
  | true, false => some ⟨below, grid⟩
  | false, true => some ⟨below + 1, grid⟩
  | false, false => none

/-- All digits of the value, for a power of two divides a power of ten. -/
def Magnitude.exact (v : Magnitude) : Digits :=
  if 0 ≤ v.exponent then ⟨v.mantissa <<< v.exponent.toNat, 0⟩
  else ⟨v.mantissa * Nat.pow 5 (-v.exponent).toNat, v.exponent⟩

/-- Seventeen digits suffice for every double, so the exact digits are never called for. -/
def Magnitude.shortest (v : Magnitude) (tie : Tie) : Digits :=
  let first := v.ratio.firstDigit
  match (List.range 17).findSome? fun (n : Nat) => v.pick tie (first - n) with
  | some d => trimZeros d.digits d.exponent
  | none => v.exact

/-- The nearest number of `count` significant digits, a half going to the even neighbour. -/
def Magnitude.significant (v : Magnitude) (count : Nat) : Digits :=
  let grid := v.ratio.firstDigit - count + 1
  let rounded := nearer .even (v.ratio.onGrid grid)
  if rounded = Nat.pow 10 count then ⟨rounded / 10, grid + 1⟩ else ⟨rounded, grid⟩

end StochasticGrammar.Decimal

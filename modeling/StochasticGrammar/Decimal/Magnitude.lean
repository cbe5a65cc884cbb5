/-!
Doubles as exact numbers. A finite double is a sign and a magnitude `mantissa * 2 ^ exponent`; here
its bits are taken apart, and quotients of naturals are placed between powers of ten.
-/

namespace StochasticGrammar.Decimal

structure Magnitude where
  mantissa : Nat
  exponent : Int
  deriving DecidableEq, Repr

inductive Reading where
  | nan
  | infinite (negative : Bool)
  | finite (negative : Bool) (magnitude : Magnitude)
  deriving DecidableEq, Repr

def Reading.ofBits (bits : UInt64) : Reading :=
  let negative := bits >>> 63 == 1
  let field := ((bits >>> 52) &&& 0x7ff).toNat
  let fraction := (bits &&& 0xfffffffffffff).toNat
  if field = 0x7ff then
    if fraction = 0 then .infinite negative else .nan
  else if field = 0 then .finite negative ⟨fraction, -1074⟩
  else .finite negative ⟨0x10000000000000 + fraction, field - 1075⟩

def Reading.ofFloat (x : Float) : Reading := .ofBits x.toBits

/-- A quotient of naturals; the denominator is meant to be positive. -/
structure Ratio where
  num : Nat
  den : Nat
  deriving DecidableEq, Repr

def Ratio.shift (q : Ratio) (base : Nat) (power : Int) : Ratio :=
  if 0 ≤ power then ⟨q.num * base.pow power.toNat, q.den⟩
  else ⟨q.num, q.den * base.pow (-power).toNat⟩

def Ratio.floor (q : Ratio) : Nat := q.num / q.den

def Magnitude.ratio (v : Magnitude) : Ratio := Ratio.shift ⟨v.mantissa, 1⟩ 2 v.exponent

def Ratio.reaches (q : Ratio) (power : Int) : Bool :=
  let p := Ratio.shift ⟨1, 1⟩ 10 power
  decide (p.num * q.den ≤ q.num * p.den)

/-- The exponent of the first decimal digit: the greatest `p` with `10 ^ p ≤ q`. The binary lengths
of numerator and denominator leave two candidates, and the rounded logarithm of two one on each side. -/
def Ratio.firstDigit (q : Ratio) : Int :=
  let length : Int := (q.num.log2 : Int) - q.den.log2
  let guess : Int := (length - 1) * 30103 / 100000
  if q.reaches (guess + 2) then guess + 2
  else if q.reaches (guess + 1) then guess + 1
  else if q.reaches guess then guess
  else guess - 1

/-- The two neighbours of `q` among the multiples of `10 ^ grid` are `floor` and `floor + 1`. -/
def Ratio.onGrid (q : Ratio) (grid : Int) : Ratio := q.shift 10 (-grid)

end StochasticGrammar.Decimal

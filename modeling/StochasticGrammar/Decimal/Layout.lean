import StochasticGrammar.Decimal.Shortest

/-!
How chosen digits are written. `plain` is the text of numbers in formulas, grammars and messages,
`report` that of numbers in reports, `scientific` a mantissa of set length with an exponent.
-/

namespace StochasticGrammar.Decimal

structure Layout where
  tie : Tie
  /-- Whole numbers keep a point and one zero. -/
  pointed : Bool
  /-- The exponents of a first digit that are written without an exponent. -/
  positional : Int → Bool
  nan : String
  infinite : Bool → String

def Layout.plain : Layout where
  tie := .up
  pointed := false
  positional := fun _ => true
  nan := "NaN"
  infinite := fun negative => if negative then "-inf" else "inf"

def Layout.report : Layout where
  tie := .even
  pointed := true
  positional := fun e => decide (-5 ≤ e ∧ e ≤ 15)
  nan := "null"
  infinite := fun _ => "null"

def zeros (n : Nat) : List Char := List.replicate n '0'

def Layout.positionalText (layout : Layout) (digits : List Char) (exponent : Int) : List Char :=
  let whole : Int := digits.length + exponent
  if whole ≤ 0 then '0' :: '.' :: (zeros (-whole).toNat ++ digits)
  else if exponent < 0 then digits.take whole.toNat ++ '.' :: digits.drop whole.toNat
  else digits ++ zeros exponent.toNat ++ (if layout.pointed then ['.', '0'] else [])

def pointAfterFirst : List Char → List Char
  | [] => []
  | [d] => [d]
  | d :: rest => d :: '.' :: rest

def signedExponent (e : Int) : List Char :=
  (if e < 0 then '-' else '+') :: Nat.toDigits 10 e.natAbs

def Layout.magnitudeText (layout : Layout) (d : Digits) : List Char :=
  let digits := Nat.toDigits 10 d.digits
  let first : Int := digits.length + d.exponent - 1
  if layout.positional first then layout.positionalText digits d.exponent
  else pointAfterFirst digits ++ 'e' :: signedExponent first

def signed (negative : Bool) (text : List Char) : String :=
  String.ofList (if negative then '-' :: text else text)

def Layout.write (layout : Layout) (x : Float) : String :=
  match Reading.ofFloat x with
  | .nan => layout.nan
  | .infinite negative => layout.infinite negative
  | .finite negative v =>
    let d := if v.mantissa = 0 then ⟨0, 0⟩ else v.shortest layout.tie
    signed negative (layout.magnitudeText d)

/-- The text of a double in formulas, grammars and messages. -/
def text (x : Float) : String := Layout.plain.write x

/-- `count` significant digits with one before the point, then the bare exponent. -/
def scientific (count : Nat) (x : Float) : String :=
  match Reading.ofFloat x with
  | .nan => Layout.plain.nan
  | .infinite negative => Layout.plain.infinite negative
  | .finite negative v =>
    if v.mantissa = 0 then
      signed negative (pointAfterFirst (zeros count) ++ ['e', '0'])
    else
      let d := v.significant count
      let digits := Nat.toDigits 10 d.digits
      let first : Int := digits.length + d.exponent - 1
      signed negative (pointAfterFirst digits ++ 'e' :: (toString first).toList)

end StochasticGrammar.Decimal

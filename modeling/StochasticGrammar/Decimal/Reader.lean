/-!
Reading decimal numbers. A number is an optional sign, digits with an optional fraction (or a
fraction alone) and an optional exponent; its value is the double nearest to it.
-/

namespace StochasticGrammar.Decimal

def digitsValue (digits : List Char) : Nat :=
  digits.foldl (fun n c => 10 * n + (c.toNat - '0'.toNat)) 0

/-- The double nearest to `mantissa * 10 ^ exponent`. Beyond the cut-offs every double is infinite or
zero, whatever the digits, and no large power is formed. -/
def nearest (mantissa : Nat) (exponent : Int) : Float :=
  let top : Int := (Nat.toDigits 10 mantissa).length + exponent
  if mantissa = 0 ∨ top < -330 then 0.0
  else if 330 < top then 1.0 / 0.0
  else Float.ofScientific mantissa (decide (exponent < 0)) exponent.natAbs

inductive Scan where
  | absent
  /-- A mantissa is followed by an exponent mark without digits. -/
  | broken
  | number (value : Float) (rest : List Char)

def splitSign : List Char → Bool × List Char
  | '-' :: rest => (true, rest)
  | '+' :: rest => (false, rest)
  | rest => (false, rest)

def splitDigits (input : List Char) : List Char × List Char :=
  (input.takeWhile Char.isDigit, input.dropWhile Char.isDigit)

def splitFraction : List Char → List Char × List Char
  | '.' :: rest => splitDigits rest
  | rest => ([], rest)

/-- The exponent and what follows it; without an exponent mark the exponent is zero. -/
def splitExponent : List Char → Option (Int × List Char)
  | c :: rest =>
    if c = 'e' ∨ c = 'E' then
      let (negative, rest) := splitSign rest
      match splitDigits rest with
      | ([], _) => none
      | (digits, rest) =>
        let size : Int := digitsValue digits
        some (if negative then -size else size, rest)
    else some (0, c :: rest)
  | [] => some (0, [])

def scan (input : List Char) : Scan :=
  let (negative, rest) := splitSign input
  let (whole, rest) := splitDigits rest
  let (fraction, rest) := splitFraction rest
  if whole.isEmpty && fraction.isEmpty then .absent
  else match splitExponent rest with
    | none => .broken
    | some (exponent, rest) =>
      let value := nearest (digitsValue (whole ++ fraction)) (exponent - fraction.length)
      .number (if negative then -value else value) rest

theorem splitSign_length (input : List Char) : (splitSign input).2.length ≤ input.length := by
  unfold splitSign
  split <;> simp

theorem splitDigits_length (input : List Char) :
    (splitDigits input).1.length + (splitDigits input).2.length = input.length := by
  simp only [splitDigits]
  rw [← List.length_append, List.takeWhile_append_dropWhile]

theorem splitFraction_length (input : List Char) :
    (splitFraction input).1.length + (splitFraction input).2.length ≤ input.length := by
  unfold splitFraction
  split
  · rename_i rest
    have := splitDigits_length rest
    simp only [List.length_cons]
    omega
  · simp

theorem splitExponent_length {input : List Char} {exponent : Int} {rest : List Char}
    (h : splitExponent input = some (exponent, rest)) : rest.length ≤ input.length := by
  cases input with
  | nil => simp_all [splitExponent]
  | cons c tail =>
    simp only [splitExponent] at h
    split at h
    · have sign := splitSign_length tail
      have digits := splitDigits_length (splitSign tail).2
      simp only [List.length_cons]
      split at h
      · cases h
      · rename_i heq
        rw [heq] at digits
        cases h
        simp only at digits
        omega
    · cases h
      simp

theorem scan_shortens {input : List Char} {value : Float} {rest : List Char}
    (h : scan input = .number value rest) : rest.length < input.length := by
  have sign := splitSign_length input
  have whole := splitDigits_length (splitSign input).2
  have fraction := splitFraction_length (splitDigits (splitSign input).2).2
  simp only [scan] at h
  split at h
  · cases h
  · rename_i nonempty
    split at h
    · cases h
    · rename_i heq
      have exponent := splitExponent_length heq
      cases h
      have some_digit : 0 < (splitDigits (splitSign input).2).1.length +
          (splitFraction (splitDigits (splitSign input).2).2).1.length := by
        simp only [Bool.and_eq_true, List.isEmpty_iff, not_and] at nonempty
        rcases Nat.eq_zero_or_pos (splitDigits (splitSign input).2).1.length with none | some
        · have := List.length_pos_iff.mpr (nonempty (List.length_eq_zero_iff.mp none))
          omega
        · omega
      omega

/-- A number standing alone, or a name of infinity or of the undefined value in any case. -/
def read? (text : List Char) : Option Float :=
  match scan text with
  | .number value [] => some value
  | .number .. | .broken => none
  | .absent =>
    let (negative, name) := splitSign text
    match String.ofList (name.map Char.toLower) with
    | "nan" => some (0.0 / 0.0)
    | "inf" | "infinity" => some (if negative then -(1.0 / 0.0) else 1.0 / 0.0)
    | _ => none

end StochasticGrammar.Decimal

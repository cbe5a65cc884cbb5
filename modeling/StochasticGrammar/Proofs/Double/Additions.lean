import StochasticGrammar.Proofs.Double.Bounds

/-!
Sums of numbers of any sign. What is negative takes nothing to infinity, and above a bound what is
small is lost in rounding; a sum of any number of small parts therefore stays below the bound.
-/

namespace StochasticGrammar.Double

open Float.Model Float.Model.UnpackedFloat

variable {x y : Float} {bound : Nat}

/-- What a number adds above zero. -/
def gain (f : UnpackedFloat) : Nat := (rankOf f).toNat

theorem overflow_of_lt {f : UnpackedFloat} (sign : NotNegative f) (canonical : Canonical f)
    (small : units f < limit) : overflow f = f := by
  cases f with
  | infinity sign' => exact sign.elim
  | notANumber => exact sign.elim
  | zero sign' => rfl
  | finite sign' m e positive => exact if_pos ((units_lt_limit canonical).mp small)

/-- A sum at a common exponent, rounded. -/
theorem rankOf_normalize {m : Int} {e : Int} (least : -1074 ≤ e)
    (order : m.toNat * 2 ^ (e + 1074).toNat ≤ bound) (small : rounded (bound * unity) < limit) :
    let sum := UnpackedFloat.normalize Format.binary64 m e .positive
    Canonical sum ∧ overflow sum ≠ .notANumber ∧ rankOf (overflow sum) ≤ rounded (bound * unity) := by
  simp only [UnpackedFloat.normalize]
  split
  · rename_i less
    have positive : 0 < (-m).toNat := by
      have := Int.compare_eq_lt.mp less
      omega
    rcases round_pos .negative positive least with ⟨n, e', some, rounded, made⟩
    rw [rounded]
    refine ⟨made, ?_⟩
    rw [overflow]
    split
    · exact ⟨by simp, by simp only [rankOf]; omega⟩
    · exact ⟨by simp, by simp only [rankOf]; omega⟩
  · exact ⟨trivial, by simp [overflow], by simp only [overflow, rankOf]; omega⟩
  · rename_i greater
    have positive : 0 < m.toNat := by
      have := Int.compare_eq_gt.mp greater
      omega
    rcases units_round positive least with ⟨amount, sign, made⟩
    have most := rounded_mono (Nat.mul_le_mul_right unity order)
    rw [← amount] at most
    refine ⟨made, ?_⟩
    rw [overflow_of_lt sign made (Nat.lt_of_le_of_lt most small), rankOf_eq sign]
    refine ⟨?_, by exact_mod_cast most⟩
    intro nan
    rw [nan] at sign
    exact sign

/-- The gain of a number at a lower exponent. -/
theorem gain_aligned (sign : Sign) {m : Nat} {e least : Int} (positive : 0 < m) (lower : least ≤ e)
    (bound : -1074 ≤ least) :
    (sign.apply ((m * 2 ^ (e - least).toNat : Nat) : Int)).toNat * 2 ^ (least + 1074).toNat =
      gain (.finite sign m e positive) := by
  cases sign with
  | negative =>
    have none : (-((m * 2 ^ (e - least).toNat : Nat) : Int)).toNat = 0 := by omega
    have none' : gain (.finite .negative m e positive) = 0 := by
      simp only [gain, rankOf]
      omega
    rw [Sign.apply, none, none', Nat.zero_mul]
  | positive =>
    have power : (e - least).toNat + (least + 1074).toNat = (e + 1074).toNat := by omega
    simp only [Sign.apply, gain, rankOf, units, Int.toNat_natCast]
    rw [Nat.mul_assoc, ← Nat.pow_add, power]

theorem rank_le_rounded (finite : x.isFinite = true) (order : gain (number x) ≤ bound) :
    rank x ≤ rounded (bound * unity) := by
  have canonical := canonical_number x
  rcases shape_of_isFinite finite with ⟨sign, shape⟩ | ⟨sign, m, e, positive, shape⟩
  · rw [rank, shape]
    exact Int.natCast_nonneg _
  · rw [shape] at canonical order
    rw [rank, shape]
    cases sign with
    | negative =>
      simp only [rankOf]
      omega
    | positive =>
      have same := rounded_units canonical
      have most := rounded_mono (Nat.mul_le_mul_right unity order)
      rw [gain, rankOf, Int.toNat_natCast, same] at most
      exact Int.ofNat_le.mpr most

/-- Two numbers are aligned to the lower exponent before they are added. -/
theorem rankOf_add {sign sign' : Sign} {m m' : Nat} {e e' : Int} {positive : 0 < m} {positive' : 0 < m'}
    (canonical : Canonical (.finite sign m e positive)) (canonical' : Canonical (.finite sign' m' e' positive'))
    (order : gain (.finite sign m e positive) + gain (.finite sign' m' e' positive') ≤ bound)
    (small : rounded (bound * unity) < limit) :
    let sum := UnpackedFloat.add Format.binary64 (.finite sign m e positive) (.finite sign' m' e' positive')
    Canonical sum ∧ overflow sum ≠ .notANumber ∧ rankOf (overflow sum) ≤ rounded (bound * unity) := by
  have least : -1074 ≤ min e e' := le_min canonical.2.1 canonical'.2.1
  rw [← gain_aligned sign positive (min_le_left e e') least,
    ← gain_aligned sign' positive' (min_le_right e e') least, ← Nat.add_mul] at order
  simp only [UnpackedFloat.add, decreaseExponent, Nat.shiftLeft_eq]
  generalize sign.apply ((m * 2 ^ (e - min e e').toNat : Nat) : Int) = a at order ⊢
  generalize sign'.apply ((m' * 2 ^ (e' - min e e').toNat : Nat) : Int) = a' at order ⊢
  have parts : (a + a').toNat ≤ a.toNat + a'.toNat := by omega
  exact rankOf_normalize least (Nat.le_trans (Nat.mul_le_mul_right _ parts) order) small

theorem add_zeros (sign sign' : Sign) :
    ∃ sign'', UnpackedFloat.add Format.binary64 (.zero sign) (.zero sign') = .zero sign'' := by
  cases sign <;> cases sign' <;> exact ⟨_, rfl⟩

/-- A sum of numbers is rounded to no more than the sum of their gains. -/
theorem rank_add_le (left : x.isFinite = true) (right : y.isFinite = true)
    (order : gain (number x) + gain (number y) ≤ bound) (small : rounded (bound * unity) < limit) :
    (x + y).isNaN = false ∧ rank (x + y) ≤ rounded (bound * unity) := by
  have first := rank_le_rounded left (Nat.le_trans (Nat.le_add_right _ _) order)
  have second := rank_le_rounded right (Nat.le_trans (Nat.le_add_left _ _) order)
  have canonical := canonical_number x
  have canonical' := canonical_number y
  have kept : overflow (number x) = number x := (canonical_unpack x.toModel).2
  have kept' : overflow (number y) = number y := (canonical_unpack y.toModel).2
  have answer {f : UnpackedFloat} (sum : UnpackedFloat.add Format.binary64 (number x) (number y) = f)
      (made : Canonical f) (defined : overflow f ≠ .notANumber)
      (most : rankOf (overflow f) ≤ rounded (bound * unity)) :
      (x + y).isNaN = false ∧ rank (x + y) ≤ rounded (bound * unity) := by
    have shape : number (x + y) = overflow f := by rw [number_add, sum, unpack_pack made]
    rw [rank, isNaN_eq_false_iff, shape]
    exact ⟨defined, most⟩
  rcases shape_of_isFinite left with ⟨sign, shape⟩ | ⟨sign, m, e, positive, shape⟩
  · rcases shape_of_isFinite right with ⟨sign', shape'⟩ | ⟨sign', m', e', positive', shape'⟩
    · rw [shape, shape'] at answer
      rcases add_zeros sign sign' with ⟨sign'', sum⟩
      exact answer sum trivial (by simp [overflow]) (Int.natCast_nonneg _)
    · have sum : UnpackedFloat.add Format.binary64 (number x) (number y) = number y := by
        rw [shape, shape']
        rfl
      have defined : overflow (number y) ≠ .notANumber := by
        rw [kept', shape']
        simp
      exact answer sum canonical' defined (kept'.symm ▸ second)
  · rcases shape_of_isFinite right with ⟨sign', shape'⟩ | ⟨sign', m', e', positive', shape'⟩
    · have sum : UnpackedFloat.add Format.binary64 (number x) (number y) = number x := by
        rw [shape, shape']
        rfl
      have defined : overflow (number x) ≠ .notANumber := by
        rw [kept, shape]
        simp
      exact answer sum canonical defined (kept.symm ▸ first)
    · rw [shape] at canonical
      rw [shape'] at canonical'
      rw [shape, shape'] at answer order
      rcases rankOf_add canonical canonical' order small with ⟨made, defined, most⟩
      exact answer rfl made defined most

/-- Not above the bound from which on parts of up to `2 ^ 10` are lost. -/
structure Capped (x : Float) : Prop where
  defined : x.isNaN = false
  most : rank x ≤ (2 ^ 64 * unity : Nat)

/-- The exact sum has two digits too many, and they round to none. -/
theorem rounded_capped : rounded ((2 ^ 64 * unity + 2 ^ 10 * unity) * unity) = 2 ^ 64 * unity := by
  have exact_eq : (2 ^ 64 * unity + 2 ^ 10 * unity) * unity = (2 ^ 54 + 1) * 2 ^ (10 + 2148) := by
    rw [(two_pow_unity 10).2]
    ring
  have log : ((2 ^ 54 + 1) * 2 ^ (10 + 2148)).log2 = 54 + (10 + 2148) := by
    have short : (2 ^ 54 + 1).log2 = 54 := by decide
    rw [log2_scale (by decide), short]
  have digits : nearest ((2 ^ 54 + 1) * 2 ^ (10 + 2148)) (2 + (10 + 2148)) = 2 ^ 52 := by
    rw [nearest_scale]
    decide
  have shift : max (54 + (10 + 2148) - 52) 1074 = 2 + (10 + 2148) := by omega
  have power : 52 + (2 + (10 + 2148) - 1074) = 64 + 1074 := by omega
  rw [exact_eq, rounded, log, shift, digits, ← Nat.pow_add, power, (two_pow_unity 64).1]

theorem finite_or_bottom (defined : x.isNaN = false) (small : rank x < limit) :
    x.isFinite = true ∨ number x = .infinity .negative := by
  rw [rank] at small
  change (number x).isFinite = true ∨ _
  cases shape : number x with
  | notANumber => exact absurd shape (isNaN_eq_false_iff.mp defined)
  | zero sign => exact .inl rfl
  | finite sign m e positive => exact .inl rfl
  | infinity sign =>
    rw [shape] at small
    cases sign with
    | negative => exact .inr rfl
    | positive => exact absurd small (lt_irrefl _)

theorem add_bottom (finite : x.isFinite = true) :
    UnpackedFloat.add Format.binary64 (number x) (.infinity .negative) = .infinity .negative ∧
      UnpackedFloat.add Format.binary64 (.infinity .negative) (number x) = .infinity .negative := by
  rcases shape_of_isFinite finite with ⟨sign, shape⟩ | ⟨sign, m, e, positive, shape⟩
  · rw [shape]
    exact ⟨rfl, rfl⟩
  · rw [shape]
    exact ⟨rfl, rfl⟩

/-- Small parts are lost at the bound, and the negative infinity takes them all. -/
theorem Capped.add (capped : Capped x) (defined : y.isNaN = false) (most : rank y ≤ (2 ^ 10 * unity : Nat)) :
    Capped (x + y) := by
  have small : rank x < limit := lt_of_le_of_lt capped.most (Int.ofNat_lt.mpr (power_lt_limit (by decide)))
  have small' : rank y < limit := lt_of_le_of_lt most (Int.ofNat_lt.mpr (power_lt_limit (by decide)))
  have bottom (sum : UnpackedFloat.add Format.binary64 (number x) (number y) = .infinity .negative) :
      Capped (x + y) := by
    have shape : number (x + y) = .infinity .negative := by
      rw [number_add, sum]
      exact unpack_pack trivial
    have least : rank (x + y) = -limit := by rw [rank, shape, rankOf]
    refine ⟨?_, by omega⟩
    rw [isNaN_eq_false_iff, shape]
    simp
  rcases finite_or_bottom capped.defined small with left | shape
  · rcases finite_or_bottom defined small' with right | shape'
    · have order : gain (number x) + gain (number y) ≤ 2 ^ 64 * unity + 2 ^ 10 * unity :=
        Nat.add_le_add (Int.toNat_le.mpr capped.most) (Int.toNat_le.mpr most)
      have fits : rounded ((2 ^ 64 * unity + 2 ^ 10 * unity) * unity) < limit := by
        rw [rounded_capped]
        exact power_lt_limit (by decide)
      rcases rank_add_le left right order fits with ⟨defined, most⟩
      rw [rounded_capped] at most
      exact ⟨defined, most⟩
    · exact bottom (shape' ▸ (add_bottom left).1)
  · rcases finite_or_bottom defined small' with right | shape'
    · exact bottom (shape ▸ (add_bottom right).2)
    · exact bottom (by rw [shape, shape']; rfl)

end StochasticGrammar.Double

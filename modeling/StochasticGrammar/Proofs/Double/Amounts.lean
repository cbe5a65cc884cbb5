import StochasticGrammar.Proofs.Double.Bounds
import StochasticGrammar.Proofs.Double.Strata

/-!
The numbers that doubles stand for. A drawn fraction stands for the upper bits of its word, a number from
zero up to and without one.
-/

namespace StochasticGrammar.Double

open Float.Model Float.Model.UnpackedFloat Decimal

variable {x y : Float}

/-- The number that a finite double stands for. -/
def amount (x : Float) : ℚ := rank x / unity

theorem unity_cast : (unity : ℚ) = 2 ^ (1074 : Int) := by
  rw [unity, Nat.cast_pow, Nat.cast_ofNat]
  exact (zpow_natCast 2 1074).symm

theorem unity_cast_pos : (0 : ℚ) < unity := by exact_mod_cast unity_pos

theorem amount_lt_iff (left : x.isNaN = false) (right : y.isNaN = false) : amount x < amount y ↔ x < y := by
  rw [lt_iff_rank left right, amount, amount, div_lt_div_iff_of_pos_right unity_cast_pos, Int.cast_lt]

theorem level_eq {m : Nat} {e : Int} {positive : 0 < m} (shape : number x = .finite .positive m e positive) :
    (level x : ℚ) = m * 2 ^ e * unity := by
  have canonical := canonical_number x
  rw [shape] at canonical
  have least : -1074 ≤ e := canonical.2.1
  have lifted : (((e + 1074).toNat : Nat) : Int) = e + 1074 := Int.toNat_of_nonneg (by omega)
  rw [level, shape, units, Nat.cast_mul, Nat.cast_pow, Nat.cast_ofNat, ← zpow_natCast, lifted,
    zpow_add₀ two_ne_zero, unity_cast, mul_assoc]

theorem amount_eq_level (sign : NotNegative (number x)) : amount x = level x / unity := by
  rw [amount, rank, rankOf_eq sign]
  rfl

/-- A product of at most one is what rounding makes of it. -/
theorem level_mul (left : NotNegative (number x)) (right : NotNegative (number y))
    (bounded : rounded (level x * level y) ≤ unity) :
    NotNegative (number (x * y)) ∧ level (x * y) = rounded (level x * level y) := by
  obtain ⟨same, sign, canonical⟩ := units_mul left right (canonical_number x) (canonical_number y)
  have product : number (x * y) = UnpackedFloat.mul Format.binary64 (number x) (number y) := by
    rw [number_mul, unpack_pack canonical]
    exact overflow_of_units (same ▸ bounded)
  unfold level at *
  rw [product, same]
  exact ⟨sign, rfl⟩

theorem level_word {n : Nat} (short : n < 2 ^ 53) :
    NotNegative (number n.toUInt64.toFloat) ∧ level n.toUInt64.toFloat = n * unity := by
  rcases Nat.eq_zero_or_pos n with rfl | positive
  · have zero : Nat.toUInt64 0 = 0 := rfl
    have number_eq : number (0 : UInt64).toFloat = .zero .positive := by rfl
    rw [zero, level, number_eq, Nat.zero_mul]
    exact ⟨trivial, rfl⟩
  · obtain ⟨m, e, some, shape, -, stands⟩ := stands_toFloat positive short
    have whole := level_eq shape
    rw [stands] at whole
    refine ⟨by rw [shape]; trivial, by exact_mod_cast whole⟩

theorem level_scale :
    NotNegative (number 1.1102230246251565e-16) ∧ level 1.1102230246251565e-16 = 2 ^ 1021 := by
  obtain ⟨m, e, some, shape, low, high⟩ := sized_scale
  have whole := level_eq shape
  have scale : (m : ℚ) * 2 ^ e = 2 ^ (-53 : Int) := le_antisymm high low
  rw [scale, unity_cast, ← zpow_add₀ two_ne_zero] at whole
  have power : (2 : ℚ) ^ (-53 + 1074 : Int) = ((2 ^ 1021 : Nat) : ℚ) := by
    rw [Nat.cast_pow, Nat.cast_ofNat, ← zpow_natCast]
    rfl
  rw [power] at whole
  exact ⟨by rw [shape]; trivial, by exact_mod_cast whole⟩

theorem upper_lt (word : UInt64) : (word >>> 11).toNat < 2 ^ 53 := by
  have bound := word.toNat_lt
  rw [UInt64.toNat_shiftRight, Nat.shiftRight_eq_div_pow]
  change word.toNat / 2 ^ 11 < 2 ^ 53
  omega

/-- A drawn fraction is exact. -/
theorem amount_unit (word : UInt64) : amount (RandomSource.unit word) = (word >>> 11).toNat / 2 ^ 53 := by
  have short := upper_lt word
  have digits := level_word short
  rw [Nat.toUInt64_eq, UInt64.ofNat_toNat] at digits
  have scale := level_scale
  have product : rounded (level (word >>> 11).toFloat * level 1.1102230246251565e-16) =
      (word >>> 11).toNat * 2 ^ 1021 := by
    have power : unity * 2 ^ 1021 = 2 ^ 2095 := by rw [unity, ← Nat.pow_add]
    rw [digits.2, scale.2, Nat.mul_assoc, power, rounded_exact short (by decide)]
  have one : 2 ^ 53 * 2 ^ 1021 = unity := by rw [unity, ← Nat.pow_add]
  have bounded : (word >>> 11).toNat * 2 ^ 1021 ≤ unity := by
    rw [← one]
    exact Nat.mul_le_mul_right _ short.le
  rw [← product] at bounded
  obtain ⟨sign, level_eq⟩ := level_mul digits.1 scale.1 bounded
  have split : (unity : ℚ) = 2 ^ 53 * 2 ^ 1021 := by
    rw [← one, Nat.cast_mul, Nat.cast_pow, Nat.cast_pow, Nat.cast_ofNat]
  have some : (2 : ℚ) ^ 1021 ≠ 0 := pow_ne_zero _ two_ne_zero
  change amount ((word >>> 11).toFloat * 1.1102230246251565e-16) = _
  rw [amount_eq_level sign, level_eq, product, split, Nat.cast_mul, Nat.cast_pow, Nat.cast_ofNat,
    mul_div_mul_right _ _ some]

theorem amount_unit_bounds (word : UInt64) :
    0 ≤ amount (RandomSource.unit word) ∧ amount (RandomSource.unit word) < 1 := by
  have short : ((word >>> 11).toNat : ℚ) < 2 ^ 53 := by exact_mod_cast upper_lt word
  have some : (0 : ℚ) < 2 ^ 53 := pow_pos two_pos _
  rw [amount_unit]
  exact ⟨div_nonneg (Nat.cast_nonneg _) some.le, (div_lt_one some).mpr short⟩

end StochasticGrammar.Double

import StochasticGrammar.Proofs.Double.Bounds

/-!
Doubles that are not negative, and among them those up to one. They are compared as their heights. What
is finite has finite products with what is at most one, and zero when a factor is zero.
-/

namespace StochasticGrammar.Double

open Float.Model Float.Model.UnpackedFloat

variable {x y : Float} {j k : Nat}

theorem le_iff_height (left : Nonnegative x) (right : Nonnegative y) : x ≤ y ↔ height x ≤ height y := by
  rw [le_iff_rank left.isNaN right.isNaN, ← Int.not_lt, ← lt_iff_rank right.isNaN left.isNaN,
    lt_iff_height right left, not_lt]

theorem beq_zero_iff_not_pos (sign : Nonnegative x) : (x == 0.0) = true ↔ ¬ 0.0 < x := by
  have zero : (0.0 : Float).isNaN = false := by decide +kernel
  have least := nonnegative_iff.mp sign
  rw [le_iff_rank zero sign.isNaN] at least
  rw [beq_iff_rank sign.isNaN zero, lt_iff_rank zero sign.isNaN]
  omega

theorem beq_zero_iff_height (sign : Nonnegative x) : (x == 0.0) = true ↔ height x = 0 := by
  rw [beq_zero_iff_not_pos sign, pos_iff_height sign, pos_iff_ne_zero, not_not]

theorem isFinite_iff_height (sign : Nonnegative x) : x.isFinite = true ↔ height x ≠ ⊤ := by
  change (number x).isFinite = true ↔ heightOf (number x) ≠ ⊤
  cases shape : number x with
  | infinity sign' => simp [UnpackedFloat.isFinite, heightOf]
  | notANumber =>
    rw [Nonnegative, shape] at sign
    exact sign.elim
  | zero sign' => exact iff_of_true rfl (ENat.natCast_ne_top _)
  | finite sign' m e positive => exact iff_of_true rfl (ENat.natCast_ne_top _)

theorem Nonnegative.isFinite (sign : Nonnegative x) (bounded : x.isInf = false) : x.isFinite = true :=
  isFinite_of_isInf (fun nan => not_nonnegative_of_nan nan sign) bounded

/-- A product of finite factors is a number. -/
theorem Nonnegative.mul (left : Nonnegative x) (right : Nonnegative y) (finite : x.isFinite = true)
    (finite' : y.isFinite = true) : Nonnegative (x * y) := by
  rcases height_mul left right with ⟨nan, zero⟩ | ⟨sign, -⟩
  · have product : (x * y == 0.0) = true := by
      rw [← beq_zero_iff_height left, ← beq_zero_iff_height right] at zero
      rcases zero with zero | zero
      · exact (zero_mul zero finite').1
      · exact (zero_mul zero finite).2
    rcases beq_zero_iff.mp product with ⟨sign, shape⟩
    rw [nan] at shape
    cases shape
  · exact sign

/-- A double from zero to one, by comparison. -/
theorem fraction_of_le (low : 0.0 ≤ x) (high : x ≤ 1.0) : Fraction x := by
  have sign := nonnegative_iff.mpr low
  rw [le_iff_height sign nonnegative_one, height_one] at high
  rcases AtLeastZero.cases sign with top | ⟨notNegative, amount⟩
  · rw [height, top, heightOf, top_le_iff] at high
    exact absurd high (ENat.natCast_ne_top _)
  · rw [height, amount] at high
    exact ⟨notNegative, by exact_mod_cast high⟩

/-- A positive double that does not exceed one. -/
theorem fraction_of_pos (positive : 0.0 < x) (bounded : ¬ 1.0 < x) : Fraction x := by
  have low : 0.0 ≤ x := zero_le_of_unmarked (unmarked_of_pos positive)
  apply fraction_of_le low
  have sign := nonnegative_iff.mpr low
  rw [lt_iff_height nonnegative_one sign, not_lt, ← le_iff_height sign nonnegative_one] at bounded
  exact bounded

namespace Fraction

theorem not_lt (fraction : Fraction x) : ¬ 1.0 < x := by
  have one : NotNegative (number 1.0) := by
    rw [number_one]
    trivial
  rw [lt_iff_level one fraction.1, level_one]
  exact Nat.not_lt.mpr fraction.2

theorem height_eq (fraction : Fraction x) : Nonnegative x ∧ height x = level x := by
  obtain ⟨sign, -⟩ := fraction
  unfold Nonnegative height level
  cases shape : number x with
  | infinity sign' => exact absurd sign (by rw [shape]; exact id)
  | notANumber => exact absurd sign (by rw [shape]; exact id)
  | zero sign' => exact ⟨trivial, rfl⟩
  | finite sign' m e some =>
    rw [shape] at sign
    cases sign' with
    | negative => exact sign.elim
    | positive => exact ⟨trivial, rfl⟩

theorem height_mul (left : Fraction x) (right : Fraction y) :
    height (x * y) = attained (height x * height y) := by
  have product := (Fraction.mul left right).1.height_eq.1
  rcases Double.height_mul left.height_eq.1 right.height_eq.1 with ⟨nan, -⟩ | ⟨-, height_eq⟩
  · exact absurd product (not_nonnegative_of_nan nan)
  · exact height_eq

theorem isFinite (fraction : Fraction x) : x.isFinite = true := by
  obtain ⟨sign, amount⟩ := fraction.height_eq
  rw [isFinite_iff_height sign, amount]
  exact ENat.natCast_ne_top _

/-- A share of a finite amount is finite. -/
theorem isFinite_mul (share : Fraction x) (sign : Nonnegative y) (finite : y.isFinite = true) :
    (x * y).isFinite = true := by
  obtain ⟨sign', amount⟩ := share.height_eq
  have product := sign'.mul sign share.isFinite finite
  rw [isFinite_iff_height product]
  rw [isFinite_iff_height sign] at finite
  have small : height (x * y) ≤ height y := by
    rcases Double.height_mul sign' sign with ⟨nan, -⟩ | ⟨-, height_eq⟩
    · exact absurd product (not_nonnegative_of_nan nan)
    · have most : height x ≤ unity := by
        rw [amount]
        exact_mod_cast share.2
      calc height (x * y)
          = attained (height x * height y) := height_eq
        _ ≤ attained (height y * unity) := attained_mono (by rw [mul_comm]; exact mul_le_mul_right most _)
        _ = height y := attained_height sign
  exact ne_top_of_le_ne_top finite small

theorem product_zero {r : Float} (share : Fraction r) (sign : Nonnegative x)
    (finite : x.isFinite = true) (finite' : y.isFinite = true)
    (zero : (r == 0.0) = true ∨ (x == 0.0) = true ∨ (y == 0.0) = true) : (r * x * y == 0.0) = true := by
  rcases zero with zero | zero | zero
  · exact (zero_mul (zero_mul zero finite).1 finite').1
  · exact (zero_mul (zero_mul zero share.isFinite).2 finite').1
  · exact (zero_mul zero (share.isFinite_mul sign finite)).2

end Fraction

/-- The height of what a product of a rule and two parts amounts to. -/
noncomputable def attainedBoth (rule left right : ℕ∞) : ℕ∞ := attained (attained (rule * left) * right)

theorem attainedBoth_mono {rule left left' right right' : ℕ∞} (first : left ≤ left')
    (second : right ≤ right') : attainedBoth rule left right ≤ attainedBoth rule left' right' :=
  attained_mono (mul_le_mul' (attained_mono (mul_le_mul_right first _)) second)

theorem attainedBoth_zero {rule left right : ℕ∞} (zero : rule = 0 ∨ left = 0 ∨ right = 0) :
    attainedBoth rule left right = 0 := by
  unfold attainedBoth
  rcases zero with rfl | rfl | rfl
  · rw [MulZeroClass.zero_mul, attained_zero, MulZeroClass.zero_mul, attained_zero]
  · rw [mul_zero, attained_zero, MulZeroClass.zero_mul, attained_zero]
  · rw [mul_zero, attained_zero]

/-- A product of three that is a number. -/
theorem height_mul_mul {r : Float} (rule : Nonnegative r) (left : Nonnegative x) (right : Nonnegative y) :
    number (r * x * y) = .notANumber ∨
      Nonnegative (r * x * y) ∧ height (r * x * y) = attainedBoth (height r) (height x) (height y) := by
  rcases height_mul rule left with ⟨nan, -⟩ | ⟨front, amount⟩
  · exact .inl (nan_mul (.inl nan))
  · rcases height_mul front right with ⟨nan, -⟩ | ⟨whole, amount'⟩
    · exact .inl nan
    · rw [amount] at amount'
      exact .inr ⟨whole, amount'⟩

theorem two_pow_split {n : Nat} (small : k ≤ n) : 2 ^ n = 2 ^ (n - k) * 2 ^ k := by
  rw [← Nat.pow_add, Nat.sub_add_cancel small]

/-- A power of two that is not below the least positive double is not rounded. -/
theorem rounded_two_pow_of_le (least : 1074 ≤ j) : rounded (2 ^ j) = 2 ^ (j - 1074) := by
  rcases Nat.lt_or_ge j 1126 with short | large
  · have shift : max (j - 52) 1074 = 1074 := by omega
    have whole := nearest_scale (2 ^ (j - 1074)) 0 1074
    rw [Nat.zero_add, nearest_zero, ← two_pow_split least] at whole
    rw [rounded, Nat.log2_two_pow, shift, whole, Nat.sub_self, Nat.pow_zero, Nat.mul_one]
  · exact rounded_two_pow large

/-- At least `2 ^ -k`. -/
def AtLeastPower (x : Float) (k : Nat) : Prop := unity ≤ level x * 2 ^ k

instance (x : Float) (k : Nat) : Decidable (AtLeastPower x k) := inferInstanceAs (Decidable (_ ≤ _))

theorem atLeastPower_iff (small : k ≤ 1074) : AtLeastPower x k ↔ 2 ^ (1074 - k) ≤ level x := by
  rw [AtLeastPower, unity, two_pow_split small]
  exact Nat.mul_le_mul_right_iff (Nat.two_pow_pos k)

theorem AtLeastPower.mul (left : Fraction x) (right : Fraction y) (low : AtLeastPower x j)
    (low' : AtLeastPower y k) (small : j + k ≤ 1074) : AtLeastPower (x * y) (j + k) := by
  rw [atLeastPower_iff (by omega)] at low low'
  rw [atLeastPower_iff small, (Fraction.mul left right).2]
  have power : 1074 - j + (1074 - k) - 1074 = 1074 - (j + k) := by omega
  calc 2 ^ (1074 - (j + k))
      = rounded (2 ^ (1074 - j + (1074 - k))) := by rw [rounded_two_pow_of_le (by omega), power]
    _ = rounded (2 ^ (1074 - j) * 2 ^ (1074 - k)) := by rw [Nat.pow_add]
    _ ≤ rounded (level x * level y) := rounded_mono (Nat.mul_le_mul low low')

theorem AtLeastPower.pos (fraction : Fraction x) (low : AtLeastPower x k) (small : k ≤ 1074) : 0.0 < x := by
  rw [atLeastPower_iff small] at low
  exact (pos_iff_level fraction).mpr (Nat.lt_of_lt_of_le (Nat.two_pow_pos _) low)

end StochasticGrammar.Double

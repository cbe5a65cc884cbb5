import StochasticGrammar.Hypercube
import StochasticGrammar.Proofs.Double.Quotients

/-!
Values drawn from a stratum of a range. They lie in the range but for one case: where the width of the
range overflows and the fraction drawn of it is zero, their product is not a number, and neither the sum
nor the comparisons with the bounds make it one.
-/

namespace StochasticGrammar.Double

open Float.Model Float.Model.UnpackedFloat Decimal

section

variable {x y lower upper : Float} {a b : Int}

theorem number_sub (x y : Float) :
    number (x - y) = (pack (UnpackedFloat.sub Format.binary64 (number x) (number y))).unpack := rfl

theorem defined_round (sign : Sign) (m : Nat) (e : Int) (accuracy : Accuracy) :
    roundWithAccuracy Format.binary64 sign m e accuracy ≠ .notANumber := by
  unfold roundWithAccuracy
  simp only
  split <;> exact fun same => by cases same

theorem defined_normalize (m e : Int) (sign : Sign) :
    UnpackedFloat.normalize Format.binary64 m e sign ≠ .notANumber := by
  unfold UnpackedFloat.normalize UnpackedFloat.round
  split
  · exact defined_round _ _ _ _
  · exact fun same => by cases same
  · exact defined_round _ _ _ _

theorem defined_sub (left : x.isFinite = true) (right : y.isFinite = true) : (x - y).isNaN = false := by
  rw [isNaN_eq_false_iff, number_sub]
  apply defined_pack
  rcases shape_of_isFinite left with ⟨sign, shape⟩ | ⟨sign, m, e, positive, shape⟩
  · rcases shape_of_isFinite right with ⟨sign', shape'⟩ | ⟨sign', m', e', positive', shape'⟩
    · rw [shape, shape']
      cases sign <;> cases sign' <;> exact fun same => by cases same
    · rw [shape, shape']
      exact fun same => by cases same
  · rcases shape_of_isFinite right with ⟨sign', shape'⟩ | ⟨sign', m', e', positive', shape'⟩
    · rw [shape, shape']
      exact fun same => by cases same
    · rw [shape, shape']
      exact defined_normalize _ _ _

theorem defined_add (left : x.isFinite = true) (right : y.isNaN = false) : (x + y).isNaN = false := by
  rw [isNaN_eq_false_iff] at right ⊢
  rw [number_add]
  apply defined_pack
  rcases shape_of_isFinite left with ⟨sign, shape⟩ | ⟨sign, m, e, positive, shape⟩
  · cases shape' : number y with
    | notANumber => exact absurd shape' right
    | infinity sign' | finite sign' m' e' positive' =>
      rw [shape]
      exact fun same => by cases same
    | zero sign' =>
      rw [shape]
      cases sign <;> cases sign' <;> exact fun same => by cases same
  · cases shape' : number y with
    | notANumber => exact absurd shape' right
    | infinity sign' | zero sign' =>
      rw [shape]
      exact fun same => by cases same
    | finite sign' m' e' positive' =>
      rw [shape]
      exact defined_normalize _ _ _

theorem Sized.defined_mul (defined : x.isNaN = false) (sized : Sized a b y) : (x * y).isNaN = false := by
  obtain ⟨m, e, positive, shape, -⟩ := sized
  rw [isNaN_eq_false_iff] at defined ⊢
  rw [number_mul, shape]
  apply defined_pack
  cases shape' : number x with
  | notANumber => exact absurd shape' defined
  | infinity sign | zero sign => exact fun same => by cases same
  | finite sign m' e' positive' => exact defined_round _ _ _ _

/-- Zero times infinity is the one product that is not a number. -/
theorem isNaN_mul_zero {sign : Sign} (defined : x.isNaN = false) (zero : number y = .zero sign) :
    (x * y).isNaN = true ↔ x.isFinite = false := by
  rw [isNaN_eq_false_iff] at defined
  change _ ↔ (number x).isFinite = false
  rw [isNaN_iff, number_mul, zero]
  cases shape : number x with
  | notANumber => exact absurd shape defined
  | infinity sign' => exact iff_of_true (unpack_pack (f := .notANumber) trivial) rfl
  | zero sign' | finite sign' m e positive =>
    have product (s : Sign) : (pack (.zero s)).unpack = .zero s := unpack_pack trivial
    refine iff_of_false ?_ (fun same => by cases same)
    simp only [UnpackedFloat.mul, product]
    exact fun same => by cases same

theorem clamp_of_isNaN (undefined : x.isNaN = true) : clamp x lower upper = x := by
  rw [isNaN_iff] at undefined
  have below : ¬ x < lower := by
    rw [lt_iff_compare, undefined]
    simp [UnpackedFloat.compare]
  have above : ¬ upper < x := by
    rw [lt_iff_compare, undefined]
    cases number upper <;> simp [UnpackedFloat.compare]
  rw [clamp, if_neg below, if_neg above]

/-- A number is moved into the range. -/
theorem clamp_bounds (order : lower ≤ upper) (left : lower.isNaN = false) (right : upper.isNaN = false)
    (defined : x.isNaN = false) : lower ≤ clamp x lower upper ∧ clamp x lower upper ≤ upper := by
  unfold clamp
  split
  · exact ⟨(le_iff_rank left left).mpr le_rfl, order⟩
  · rename_i above
    rw [lt_iff_rank defined left, not_lt] at above
    split
    · exact ⟨order, (le_iff_rank right right).mpr le_rfl⟩
    · rename_i below
      rw [lt_iff_rank right defined, not_lt] at below
      exact ⟨(le_iff_rank left defined).mpr above, (le_iff_rank defined right).mpr below⟩

theorem isFinite_of_bounds (left : lower.isFinite = true) (right : upper.isFinite = true) (low : lower ≤ x)
    (high : x ≤ upper) : x.isFinite = true := by
  rw [le_iff_compare] at low high
  change (number x).isFinite = true
  cases shape : number x with
  | zero sign | finite sign m e positive => rfl
  | notANumber =>
    rw [shape] at high
    simp [UnpackedFloat.compare] at high
  | infinity sign =>
    rw [shape] at low high
    cases sign with
    | positive =>
      rcases shape_of_isFinite right with ⟨sign', shape'⟩ | ⟨sign', m, e, positive, shape'⟩ <;>
        simp [shape', UnpackedFloat.compare] at high
    | negative =>
      rcases shape_of_isFinite left with ⟨sign', shape'⟩ | ⟨sign', m, e, positive, shape'⟩ <;>
        simp [shape', UnpackedFloat.compare] at low

end

/-- What the words are scaled by is a power of two. -/
theorem sized_scale : Sized (-53) (-53) 1.1102230246251565e-16 := by
  have power : ((2 ^ 52 : ℕ) : ℚ) * 2 ^ (-105 : Int) = 2 ^ (-53 : Int) := two_pow_mul_zpow 52 _
  exact ⟨2 ^ 52, -105, by decide, by rfl, power.ge, power.le⟩

/-- A drawn fraction is zero or at least its last place. -/
theorem unit_cases (word : UInt64) :
    word >>> 11 = 0 ∧ RandomSource.unit word = 0.0 ∨
      word >>> 11 ≠ 0 ∧ Sized (-54) 1 (RandomSource.unit word) := by
  by_cases zero : word >>> 11 = 0
  · left
    refine ⟨zero, ?_⟩
    rw [RandomSource.unit, zero]
    rfl
  · right
    refine ⟨zero, ?_⟩
    have positive : 0 < (word >>> 11).toNat := by
      rw [Nat.pos_iff_ne_zero, ne_eq, ← UInt64.toNat_zero, UInt64.toNat_inj]
      exact zero
    have short : (word >>> 11).toNat < 2 ^ 53 := by
      have bound := word.toNat_lt
      rw [UInt64.toNat_shiftRight, Nat.shiftRight_eq_div_pow]
      change word.toNat / 2 ^ 11 < 2 ^ 53
      omega
    have digits := sized_word positive short
    rw [Nat.toUInt64_eq, UInt64.ofNat_toNat] at digits
    exact (digits.mul sized_scale (by decide) (by decide) (by decide)).mono (by decide) (by decide)

theorem number_toFloat_zero : number (Nat.toFloat 0) = .zero .positive := by rfl

section

variable {stratum count : Nat} (inside : stratum < count) (small : count < 2 ^ 64) (word : UInt64)

include inside small

/-- The fraction of a range is zero in one case only, and otherwise far from the least double. -/
theorem fraction_cases :
    (stratum = 0 ∧ word >>> 11 = 0) ∧
        number ((stratum.toFloat + RandomSource.unit word) / count.toFloat) = .zero .positive ∨
      ¬ (stratum = 0 ∧ word >>> 11 = 0) ∧
        Sized (-121) 69 ((stratum.toFloat + RandomSource.unit word) / count.toFloat) := by
  have total : Sized (-1) 65 count.toFloat := sized_toFloat (by omega) small.le
  have fraction {x : Float} (sized : Sized (-55) 67 x) : Sized (-121) 69 (x / count.toFloat) :=
    (sized.div total (by decide) (by decide)).mono (by decide) (by decide)
  rcases Nat.eq_zero_or_pos stratum with rfl | positive
  · have zero : Nat.toFloat 0 = 0.0 := number_inj (number_toFloat_zero.trans number_zero.symm)
    rw [zero]
    rcases unit_cases word with ⟨none, offset⟩ | ⟨some, offset⟩
    · left
      refine ⟨⟨rfl, none⟩, ?_⟩
      obtain ⟨m, e, positive, shape, -⟩ := total
      rw [offset, zero_add fun _ => rfl, number_div, number_zero, shape]
      exact unpack_pack trivial
    · right
      refine ⟨fun both => some both.2, ?_⟩
      rw [zero_add offset.unsigned]
      exact fraction (offset.mono (by decide) (by decide))
  · right
    refine ⟨fun both => positive.ne' both.1, ?_⟩
    have whole : Sized (-1) 65 stratum.toFloat := sized_toFloat positive (by omega)
    rcases unit_cases word with ⟨none, offset⟩ | ⟨some, offset⟩
    · rw [offset, add_zero whole.unsigned (by rfl)]
      exact fraction (whole.mono (by decide) (by decide))
    · have sum := (whole.mono (c := -54) (by decide) (Int.le_refl _)).add (offset.mono (Int.le_refl _) (by decide))
        (by decide) (by decide)
      exact fraction (sum.mono (by decide) (by decide))

variable {lower upper : Float} (left : lower.isFinite = true) (right : upper.isFinite = true)

include left right

theorem point_isNaN : (lower + (upper - lower) *
      ((stratum.toFloat + RandomSource.unit word) / count.toFloat)).isNaN = true ↔
    (upper - lower).isFinite = false ∧ stratum = 0 ∧ word >>> 11 = 0 := by
  have width : (upper - lower).isNaN = false := defined_sub right left
  rcases fraction_cases inside small word with ⟨lowest, zero⟩ | ⟨other, sized⟩
  · have product := isNaN_mul_zero width zero
    rw [and_iff_left lowest, ← product]
    constructor
    · intro undefined
      by_contra defined
      rw [defined_add left (Bool.eq_false_iff.mpr defined)] at undefined
      cases undefined
    · exact fun undefined => isNaN_add (.inr undefined)
  · have sum := defined_add left (sized.defined_mul width)
    refine iff_of_false ?_ fun all => other all.2
    rw [sum]
    exact Bool.false_ne_true

variable (order : lower ≤ upper)

include order

theorem stratumValue_bounds (regular : ¬ ((upper - lower).isFinite = false ∧ stratum = 0 ∧ word >>> 11 = 0)) :
    let value := stratumValue lower upper stratum count (RandomSource.unit word)
    value.isFinite = true ∧ lower ≤ value ∧ value ≤ upper := by
  intro value
  rw [← point_isNaN inside small word left right, Bool.not_eq_true] at regular
  obtain ⟨low, high⟩ : lower ≤ value ∧ value ≤ upper :=
    clamp_bounds order (isNaN_of_isFinite left) (isNaN_of_isFinite right) regular
  exact ⟨isFinite_of_bounds left right low high, low, high⟩

/-- The one case in which a drawn value is not in the range. -/
theorem stratumValue_isNaN :
    (stratumValue lower upper stratum count (RandomSource.unit word)).isNaN = true ↔
      (upper - lower).isFinite = false ∧ stratum = 0 ∧ word >>> 11 = 0 := by
  constructor
  · intro undefined
    by_contra regular
    have finite := (stratumValue_bounds inside small word left right order regular).1
    rw [isNaN_of_isFinite finite] at undefined
    cases undefined
  · intro lowest
    have undefined := (point_isNaN inside small word left right).mpr lowest
    rwa [stratumValue, clamp_of_isNaN undefined]

end

end StochasticGrammar.Double

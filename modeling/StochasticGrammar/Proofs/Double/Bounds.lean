import StochasticGrammar.Proofs.Double.Order
import StochasticGrammar.Proofs.TameWeight

/-!
Sums and products that cannot overflow. Up to 53 digits counts of a power of two are exact, so that a
sum of so many parts is bounded by their number; a sum of small parts does not grow beyond a bound at
all, for there each part is lost in rounding.
-/

namespace StochasticGrammar.Double

open Float.Model Float.Model.UnpackedFloat

variable {n k j b : Nat} {x y : Float}

theorem nonnegative_iff : Nonnegative x ↔ 0.0 ≤ x := by
  rw [le_iff_compare, number_zero, Nonnegative]
  cases shape : number x with
  | notANumber => exact ⟨False.elim, fun order => by cases order⟩
  | zero sign => exact ⟨fun _ => rfl, fun _ => trivial⟩
  | infinity sign | finite sign m e some =>
    cases sign with
    | positive => exact ⟨fun _ => rfl, fun _ => trivial⟩
    | negative => exact ⟨False.elim, fun order => by cases order⟩

theorem Nonnegative.isNaN (nonnegative : Nonnegative x) : x.isNaN = false := by
  rw [isNaN_eq_false_iff]
  exact fun nan => not_nonnegative_of_nan nan nonnegative

theorem isNaN_of_isFinite (finite : x.isFinite = true) : x.isNaN = false := by
  rw [isNaN_eq_false_iff]
  exact fun nan => not_isFinite_of_nan nan finite

theorem isNaN_add (undefined : x.isNaN = true ∨ y.isNaN = true) : (x + y).isNaN = true := by
  simp only [isNaN_iff] at undefined ⊢
  exact nan_add undefined

theorem beq_iff_rank (left : x.isNaN = false) (right : y.isNaN = false) :
    (x == y) = true ↔ rank x = rank y := by
  rw [beq_iff, compare_rank left right, Option.some.injEq, Int.compare_eq_eq]

theorem not_lt_of_zero_le (sign : 0.0 ≤ x) : ¬ x < 0.0 := by
  have zero : (0.0 : Float).isNaN = false := by decide +kernel
  have defined := (nonnegative_iff.mpr sign).isNaN
  rw [le_iff_rank zero defined] at sign
  rw [lt_iff_rank defined zero]
  omega

theorem rankOf_eq {f : UnpackedFloat} (sign : NotNegative f) : rankOf f = units f := by
  cases f with
  | infinity sign' => exact sign.elim
  | notANumber => exact sign.elim
  | zero sign' => rfl
  | finite sign' m e positive =>
    cases sign' with
    | negative => exact sign.elim
    | positive => rfl

/-- Rounding leaves what has at most 53 digits. -/
theorem rounded_exact (digits : n < 2 ^ 53) (large : 1074 ≤ j) : rounded (n * 2 ^ j) = n * 2 ^ (j - 1074) := by
  rcases Nat.eq_zero_or_pos n with rfl | positive
  · rw [Nat.zero_mul, Nat.zero_mul, rounded_zero]
  · have log : n.log2 ≤ 52 := Nat.le_of_lt_succ ((Nat.log2_lt (by omega)).mpr digits)
    rw [rounded, log2_scale positive]
    generalize shift : max (n.log2 + j - 52) 1074 = i
    have split : j = (j - i) + i := by omega
    have whole : nearest (n * 2 ^ j) i = n * 2 ^ (j - i) := by
      have scaled := nearest_scale (n * 2 ^ (j - i)) 0 i
      rwa [Nat.zero_add, nearest_zero, Nat.mul_assoc, ← Nat.pow_add, ← split] at scaled
    have power : j - i + (i - 1074) = j - 1074 := by omega
    rw [whole, Nat.mul_assoc, ← Nat.pow_add, power]

theorem attained_of_lt {exact : Nat} (small : rounded exact < limit) :
    attained exact = (rounded exact : ℕ∞) := by
  rw [attained_coe, if_pos small]

/-- The units of a power of two, and those of the square. -/
theorem two_pow_unity (k : Nat) :
    2 ^ (k + 1074) = 2 ^ k * unity ∧ 2 ^ (k + 2148) = 2 ^ k * (unity * unity) := by
  have twice : k + 2148 = k + 1074 + 1074 := by omega
  have once : 2 ^ (k + 1074) = 2 ^ k * unity := by rw [unity, Nat.pow_add]
  refine ⟨once, ?_⟩
  rw [twice, Nat.pow_add, once, ← unity, Nat.mul_assoc]

theorem rounded_power (digits : n < 2 ^ 53) (k : Nat) :
    rounded (n * (2 ^ k * (unity * unity))) = n * 2 ^ k * unity := by
  have power : k + 2148 - 1074 = k + 1074 := by omega
  rw [← (two_pow_unity k).2, rounded_exact digits (by omega), power, (two_pow_unity k).1, Nat.mul_assoc]

theorem power_lt_limit (small : k < 1024) : 2 ^ k * unity < limit := by
  rw [← (two_pow_unity k).1, limit, ← Nat.pow_add]
  exact Nat.pow_lt_pow_right (by decide) (by omega)

/-- A number from zero to `n * 2 ^ k`. -/
structure UpTo (n k : Nat) (x : Float) : Prop where
  nonnegative : Nonnegative x
  most : height x ≤ (n * 2 ^ k * unity : Nat)

namespace UpTo

/-- Nothing below the positive infinity has another rank than its height. -/
theorem of_rank (nonnegative : Nonnegative x) (most : rank x ≤ (n * 2 ^ k * unity : Nat))
    (small : n * 2 ^ k * unity < limit) : UpTo n k x := by
  refine ⟨nonnegative, ?_⟩
  rcases AtLeastZero.cases nonnegative with top | ⟨sign, amount⟩
  · rw [rank, top, rankOf] at most
    exact absurd most (by omega)
  · rw [rank, rankOf_eq sign] at most
    rw [height, amount]
    exact ENat.natCast_le_natCast.mpr (Int.ofNat_le.mp most)

theorem notNegative (bounded : UpTo n k x) : NotNegative (number x) := by
  rcases AtLeastZero.cases bounded.nonnegative with top | ⟨sign, -⟩
  · have most := bounded.most
    rw [height, top, heightOf, top_le_iff] at most
    exact absurd most (ENat.natCast_ne_top _)
  · exact sign

theorem isFinite (bounded : UpTo n k x) : x.isFinite = true := by
  have sign := bounded.notNegative
  change (number x).isFinite = true
  cases shape : number x with
  | zero sign => rfl
  | finite sign m e positive => rfl
  | infinity sign' =>
    rw [shape] at sign
    exact sign.elim
  | notANumber =>
    rw [shape] at sign
    exact sign.elim

theorem zero (n k : Nat) : UpTo n k 0.0 where
  nonnegative := nonnegative_zero
  most := by
    rw [height_zero]
    exact zero_le

theorem of_count (bounded : UpTo n k x) (count : n ≤ 2 ^ b) : UpTo 1 (k + b) x where
  nonnegative := bounded.nonnegative
  most := by
    refine le_trans bounded.most (ENat.natCast_le_natCast.mpr ?_)
    calc n * 2 ^ k * unity
        ≤ 2 ^ b * 2 ^ k * unity := Nat.mul_le_mul_right _ (Nat.mul_le_mul_right _ count)
      _ = 1 * 2 ^ (k + b) * unity := by rw [← Nat.pow_add, Nat.add_comm b k, Nat.one_mul]

theorem mono (bounded : UpTo n k x) (order : k ≤ j) : UpTo n j x where
  nonnegative := bounded.nonnegative
  most := le_trans bounded.most (ENat.natCast_le_natCast.mpr
    (Nat.mul_le_mul_right _ (Nat.mul_le_mul_left _ (Nat.pow_le_pow_right (by decide) order))))

/-- Numbers have a product, and the product of the bounds is exact. -/
theorem mul (left : UpTo 1 k x) (right : UpTo 1 j y) (small : k + j < 1024) : UpTo 1 (k + j) (x * y) := by
  have value := rounded_power (n := 1) (by decide) (k + j)
  have factors : height x * height y ≤ (1 * (2 ^ (k + j) * (unity * unity)) : Nat) := by
    have exact_eq : 1 * (2 ^ (k + j) * (unity * unity)) = (1 * 2 ^ k * unity) * (1 * 2 ^ j * unity) := by
      rw [Nat.pow_add]
      ring
    rw [exact_eq, Nat.cast_mul]
    exact mul_le_mul' left.most right.most
  have fits : rounded (1 * (2 ^ (k + j) * (unity * unity))) < limit := by
    rw [value, Nat.one_mul]
    exact power_lt_limit small
  rcases height_mul left.nonnegative right.nonnegative with ⟨nan, -⟩ | ⟨sign, amount⟩
  · rcases units_mul left.notNegative right.notNegative (canonical_number x) (canonical_number y) with
      ⟨-, kept, made⟩
    have defined := (heightOf_overflow kept made).1
    rw [← unpack_pack made, ← number_mul, nan] at defined
    exact defined.elim
  · refine ⟨sign, ?_⟩
    rw [amount, ← value, ← attained_of_lt fits]
    exact attained_mono factors

/-- One more part, and the count is one more. -/
theorem add (left : UpTo n k x) (right : UpTo 1 k y) (count : n + 1 ≤ 2 ^ b) (digits : b < 53)
    (small : b + k < 1024) : UpTo (n + 1) k (x + y) := by
  have short : n + 1 < 2 ^ 53 := Nat.lt_of_le_of_lt count (Nat.pow_lt_pow_right (by decide) digits)
  have value := rounded_power short k
  have parts : (height x + height y) * unity ≤ ((n + 1) * (2 ^ k * (unity * unity)) : Nat) := by
    have exact_eq : (n + 1) * (2 ^ k * (unity * unity)) =
        (n * 2 ^ k * unity + 1 * 2 ^ k * unity) * unity := by ring
    rw [exact_eq, Nat.cast_mul, Nat.cast_add]
    exact mul_le_mul_left (add_le_add left.most right.most) _
  have fits : rounded ((n + 1) * (2 ^ k * (unity * unity))) < limit := by
    rw [value]
    calc (n + 1) * 2 ^ k * unity
        ≤ 2 ^ b * 2 ^ k * unity := Nat.mul_le_mul_right _ (Nat.mul_le_mul_right _ count)
      _ = 2 ^ (b + k) * unity := by rw [Nat.pow_add]
      _ < limit := power_lt_limit small
  rcases height_add left.nonnegative right.nonnegative with ⟨sign, amount⟩
  refine ⟨sign, ?_⟩
  rw [amount, ← value, ← attained_of_lt fits]
  exact attained_mono parts

end UpTo

/-- A weight that is held below a bound, with everything that went into it. -/
structure Held (n k : Nat) (w : Watched Float) : Prop where
  tame : w.tame = true
  upTo : UpTo n k w.value

namespace Held

variable {v w : Watched Float}

theorem mul (left : Held 1 k v) (right : Held 1 j w) (small : k + j < 1024) : Held 1 (k + j) (v * w) := by
  have product := left.upTo.mul right.upTo small
  refine ⟨?_, product⟩
  change (v.tame && w.tame && (v.value * w.value).isFinite) = true
  rw [left.tame, right.tame, product.isFinite]
  rfl

theorem add (left : Held n k v) (right : Held 1 k w) (count : n + 1 ≤ 2 ^ b) (digits : b < 53)
    (small : b + k < 1024) : Held (n + 1) k (v + w) := by
  have sum := left.upTo.add right.upTo count digits small
  refine ⟨?_, sum⟩
  change (v.tame && w.tame && (v.value + w.value).isFinite) = true
  rw [left.tame, right.tame, sum.isFinite]
  rfl

theorem foldl {α : Type} {items : List α} {f : α → Watched Float} (start : Held n k v)
    (each : ∀ item ∈ items, Held 1 k (f item)) (count : n + items.length ≤ 2 ^ b) (digits : b < 53) (small : b + k < 1024) :
    Held (n + items.length) k (items.foldl (fun total item => total + f item) v) := by
  induction items generalizing n v with
  | nil => exact start
  | cons item items ih =>
    rw [List.forall_mem_cons] at each
    rw [List.length_cons, Nat.add_comm items.length, ← Nat.add_assoc] at count ⊢
    exact ih (start.add each.1 (by omega) digits small) each.2 count

end Held

end StochasticGrammar.Double

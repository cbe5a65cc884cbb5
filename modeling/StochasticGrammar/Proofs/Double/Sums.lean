import StochasticGrammar.Proofs.Double.Packing
import StochasticGrammar.Proofs.Double.Rounding

/-!
Zeros in sums and products of doubles. A finite number times a zero is a zero, and zeros add nothing
to a sum that is not the negative zero; no sum of other numbers is the negative zero, since the sum
of two doubles that differ from zero only vanishes when it is exact.
-/

namespace StochasticGrammar.Double

open Float.Model Float.Model.UnpackedFloat

/-- The number that a double stands for. -/
def number (x : Float) : UnpackedFloat := x.toModel.unpack

theorem number_inj {x y : Float} (same : number x = number y) : x = y := by
  obtain ⟨x⟩ := x
  obtain ⟨y⟩ := y
  exact congrArg Float.ofModel (unpack_inj same)

theorem number_zero : number 0.0 = .zero .positive := by rfl

theorem number_one : number 1.0 = .finite .positive (2 ^ 52) (-52) (by decide) := by rfl

theorem number_mul (x y : Float) :
    number (x * y) = (pack (UnpackedFloat.mul Format.binary64 (number x) (number y))).unpack := rfl

theorem number_add (x y : Float) :
    number (x + y) = (pack (UnpackedFloat.add Format.binary64 (number x) (number y))).unpack := rfl

theorem beq_iff {x y : Float} : (x == y) = true ↔ (number x).compare (number y) = some .eq := by
  change (UnpackedFloat.beq (number x) (number y)) = true ↔ _
  exact beq_iff_eq

theorem beq_zero_iff {x : Float} : (x == 0.0) = true ↔ ∃ sign, number x = .zero sign := by
  rw [beq_iff, number_zero]
  cases number x with
  | infinity sign => cases sign <;> simp [UnpackedFloat.compare]
  | notANumber => simp [UnpackedFloat.compare]
  | zero sign => simp [UnpackedFloat.compare]
  | finite sign m e positive => cases sign <;> simp [UnpackedFloat.compare]

theorem eq_one {x : Float} (one : (x == 1.0) = true) : x = 1.0 := by
  apply number_inj
  rw [beq_iff, number_one] at one
  rw [number_one]
  cases shape : number x with
  | infinity sign => cases sign <;> simp [shape, UnpackedFloat.compare] at one
  | notANumber => simp [shape, UnpackedFloat.compare] at one
  | zero sign => simp [shape, UnpackedFloat.compare] at one
  | finite sign m e positive =>
    rw [shape] at one
    cases sign with
    | negative => simp [UnpackedFloat.compare] at one
    | positive =>
      have both : (compare e (-52)).then (compare m (2 ^ 52)) = .eq := by
        simpa [UnpackedFloat.compare] using one
      have exponents : compare e (-52) = .eq := (Ordering.then_eq_eq.mp both).1
      have mantissas : compare m (2 ^ 52) = .eq := (Ordering.then_eq_eq.mp both).2
      have e_eq : e = -52 := by simpa using exponents
      have m_eq : m = 2 ^ 52 := by simpa using mantissas
      subst e_eq
      subst m_eq
      rfl

theorem zero_mul {x y : Float} (zero : (x == 0.0) = true) (finite : y.isFinite = true) :
    (x * y == 0.0) = true ∧ (y * x == 0.0) = true := by
  obtain ⟨sign, zero⟩ := beq_zero_iff.mp zero
  have finite : (number y).isFinite = true := finite
  have product (s : Sign) : (pack (.zero s)).unpack = .zero s := unpack_pack trivial
  rw [beq_zero_iff, beq_zero_iff, number_mul, number_mul, zero]
  cases shape : number y with
  | infinity sign' => simp [shape, UnpackedFloat.isFinite] at finite
  | notANumber => simp [shape, UnpackedFloat.isFinite] at finite
  | zero sign' => exact ⟨⟨_, product _⟩, ⟨_, product _⟩⟩
  | finite sign' m e positive => exact ⟨⟨_, product _⟩, ⟨_, product _⟩⟩

theorem canonical_assemble (sign : Sign) {n : Nat} {e : Int} (bound : -1074 ≤ e)
    (full : 2 ^ 52 ≤ n ∨ e = -1074) : Canonical (assemble sign n e) := by
  unfold assemble
  split
  · trivial
  · split
    · rename_i low
      exact ⟨low, bound, full⟩
    · exact ⟨by decide, by omega, .inl (Nat.le_refl _)⟩

/-- A number in units of the least exponent does not vanish when it is rounded. -/
theorem roundWithAccuracy_pos (sign : Sign) {m : Nat} {e : Int} (positive : 0 < m)
    (bound : -1074 ≤ e) (fits : e ≤ max ((m.log2 : Int) + e - 52) (-1074)) :
    ∃ n e' h, roundWithAccuracy Format.binary64 sign m e .exact = .finite sign n e' h ∧
      Canonical (.finite sign n e' h) := by
  obtain ⟨k, shift⟩ := Int.le.dest fits
  have full := nearest_full positive shift.symm
  have some : 0 < nearest m k := by
    rcases full with long | short
    · exact Nat.lt_of_lt_of_le (by decide) long
    · have whole : k = 0 := by omega
      rw [whole, nearest_zero]
      exact positive
  have rounded := roundWithAccuracy_eq sign m e (k := k) (by omega)
  have canonical := canonical_assemble sign (by omega) full
  obtain ⟨n, e', h, shape⟩ := assemble_pos sign (e + k) some
  rw [shape] at rounded canonical
  exact ⟨n, e', h, rounded, canonical⟩

theorem round_pos (sign : Sign) {m : Nat} {e : Int} (positive : 0 < m) (bound : -1074 ≤ e) :
    ∃ n e' h, UnpackedFloat.round Format.binary64 sign m e = .finite sign n e' h ∧
      Canonical (.finite sign n e' h) := by
  unfold UnpackedFloat.round
  simp only [target_eq, decreaseExponent, Nat.shiftLeft_eq]
  generalize shift : (e - max ((m.log2 : Int) + e - 52) (-1074)).toNat = j
  have log := log2_scale positive j
  apply roundWithAccuracy_pos
  · exact Nat.mul_pos positive (Nat.two_pow_pos j)
  · omega
  · rw [log]
    omega

/-- Two positive numbers are added at the lower of their exponents. -/
theorem add_of_positive {m m' : Nat} {e e' : Int} (positive : 0 < m) (positive' : 0 < m') :
    UnpackedFloat.add Format.binary64 (.finite .positive m e positive) (.finite .positive m' e' positive') =
      UnpackedFloat.round Format.binary64 .positive
        (m * 2 ^ (e - min e e').toNat + m' * 2 ^ (e' - min e e').toNat) (min e e') := by
  have some : 0 < m * 2 ^ (e - min e e').toNat := Nat.mul_pos positive (Nat.two_pow_pos _)
  have greater : compare (((m * 2 ^ (e - min e e').toNat : Nat) : Int) +
      ((m' * 2 ^ (e' - min e e').toNat : Nat) : Int)) 0 = .gt :=
    Int.compare_eq_gt.mpr (by omega)
  simp only [UnpackedFloat.add, decreaseExponent, Nat.shiftLeft_eq, Sign.apply, UnpackedFloat.normalize]
  rw [greater]
  rfl

/-- Not the negative zero. -/
def Unsigned (x : Float) : Prop := (x == 0.0) = true → x = 0.0

theorem unsigned_iff {x : Float} : Unsigned x ↔ number x ≠ .zero .negative := by
  constructor
  · intro unsigned negative
    have zero := unsigned (beq_zero_iff.mpr ⟨.negative, negative⟩)
    rw [zero, number_zero] at negative
    cases negative
  · intro other zero
    obtain ⟨sign, zero⟩ := beq_zero_iff.mp zero
    cases sign with
    | negative => exact absurd zero other
    | positive => exact number_inj (zero.trans number_zero.symm)

theorem add_zero {x z : Float} (unsigned : Unsigned x) (zero : (z == 0.0) = true) : x + z = x := by
  obtain ⟨sign, zero⟩ := beq_zero_iff.mp zero
  have other := unsigned_iff.mp unsigned
  obtain ⟨canonical, kept⟩ : Canonical (number x) ∧ overflow (number x) = number x :=
    canonical_unpack x.toModel
  have sum : UnpackedFloat.add Format.binary64 (number x) (number z) = number x := by
    rw [zero]
    cases shape : number x with
    | infinity sign' => rfl
    | notANumber => rfl
    | zero sign' =>
      cases sign' with
      | negative => exact absurd shape other
      | positive => cases sign <;> rfl
    | finite sign' m e positive => rfl
  apply number_inj
  rw [number_add, sum, unpack_pack canonical, kept]

theorem zero_add {x : Float} (unsigned : Unsigned x) : 0.0 + x = x := by
  have other := unsigned_iff.mp unsigned
  obtain ⟨canonical, kept⟩ : Canonical (number x) ∧ overflow (number x) = number x :=
    canonical_unpack x.toModel
  have sum : UnpackedFloat.add Format.binary64 (number 0.0) (number x) = number x := by
    rw [number_zero]
    cases shape : number x with
    | infinity sign => rfl
    | notANumber => rfl
    | zero sign =>
      cases sign with
      | negative => exact absurd shape other
      | positive => rfl
    | finite sign m e positive => rfl
  apply number_inj
  rw [number_add, sum, unpack_pack canonical, kept]

theorem overflow_ne_zero {f : UnpackedFloat} (other : f ≠ .zero .negative) :
    overflow f ≠ .zero .negative := by
  cases f with
  | infinity sign => exact other
  | notANumber => exact other
  | zero sign => exact other
  | finite sign m e positive =>
    rw [overflow]
    by_cases large : e ≤ 971
    · rw [if_pos large]
      exact other
    · rw [if_neg large]
      exact fun same => by cases same

theorem normalize_ne_zero (m : Int) {e : Int} (bound : -1074 ≤ e) :
    Canonical (UnpackedFloat.normalize Format.binary64 m e .positive) ∧
      UnpackedFloat.normalize Format.binary64 m e .positive ≠ .zero .negative := by
  unfold UnpackedFloat.normalize
  split
  · rename_i less
    have positive : 0 < (-m).toNat := by
      have := Int.compare_eq_lt.mp less
      omega
    obtain ⟨n, e', h, rounded, canonical⟩ := round_pos .negative positive bound
    rw [rounded]
    exact ⟨canonical, fun same => by cases same⟩
  · exact ⟨trivial, fun same => by cases same⟩
  · rename_i greater
    have positive : 0 < m.toNat := by
      have := Int.compare_eq_gt.mp greater
      omega
    obtain ⟨n, e', h, rounded, canonical⟩ := round_pos .positive positive bound
    rw [rounded]
    exact ⟨canonical, fun same => by cases same⟩

/-- A sum with a part other than the negative zero is not the negative zero. -/
theorem add_ne_zero {f g : UnpackedFloat} (canonical : Canonical f) (canonical' : Canonical g)
    (other : f ≠ .zero .negative) :
    Canonical (UnpackedFloat.add Format.binary64 f g) ∧
      UnpackedFloat.add Format.binary64 f g ≠ .zero .negative := by
  cases f with
  | notANumber => cases g <;> exact ⟨trivial, fun same => by cases same⟩
  | infinity sign =>
    cases g with
    | infinity sign' =>
      simp only [UnpackedFloat.add]
      split <;> exact ⟨trivial, fun same => by cases same⟩
    | notANumber => exact ⟨trivial, fun same => by cases same⟩
    | zero sign' => exact ⟨trivial, fun same => by cases same⟩
    | finite sign' m e positive => exact ⟨trivial, fun same => by cases same⟩
  | zero sign =>
    cases sign with
    | negative => exact absurd rfl other
    | positive =>
      cases g with
      | infinity sign' => exact ⟨trivial, fun same => by cases same⟩
      | notANumber => exact ⟨trivial, fun same => by cases same⟩
      | zero sign' => cases sign' <;> exact ⟨trivial, fun same => by cases same⟩
      | finite sign' m e positive => exact ⟨canonical', fun same => by cases same⟩
  | finite sign m e positive =>
    cases g with
    | infinity sign' => exact ⟨trivial, fun same => by cases same⟩
    | notANumber => exact ⟨trivial, fun same => by cases same⟩
    | zero sign' => exact ⟨canonical, other⟩
    | finite sign' m' e' positive' =>
      have bound : -1074 ≤ min e e' := by
        have left := canonical.2.1
        have right := canonical'.2.1
        omega
      exact normalize_ne_zero _ bound

theorem unsigned_add {x : Float} (unsigned : Unsigned x) (y : Float) : Unsigned (x + y) := by
  have canonical : Canonical (number x) := (canonical_unpack x.toModel).1
  have canonical' : Canonical (number y) := (canonical_unpack y.toModel).1
  obtain ⟨rounded, other⟩ := add_ne_zero canonical canonical' (unsigned_iff.mp unsigned)
  rw [unsigned_iff, number_add, unpack_pack rounded]
  exact overflow_ne_zero other

end StochasticGrammar.Double

import Mathlib
import StochasticGrammar.Proofs.Double.Products

/-!
Sums and products of the doubles from zero to infinity. The height of such a double is how many of
the least positive double it amounts to; that of a sum or a product is the rounded exact one, and
infinite when that is too large. Hence neither shrinks when a part grows. Zero times infinity is the
only product that is not a number.
-/

namespace StochasticGrammar.Double

open Float.Model Float.Model.UnpackedFloat

/-- Zeros, positive numbers and the positive infinity. -/
def AtLeastZero : UnpackedFloat → Prop
  | .infinity .positive => True
  | f => NotNegative f

def heightOf : UnpackedFloat → ℕ∞
  | .infinity _ => ⊤
  | f => units f

/-- The units from which on a number is too large for a double. -/
def limit : Nat := 2 ^ 53 * 2 ^ 2045

theorem limit_pos : 0 < limit := by
  unfold limit
  positivity

theorem unity_pos : 0 < unity := by
  unfold unity
  positivity

/-- The height that an exact amount, in units of the square, is rounded to. -/
noncomputable def attained (exact : ℕ∞) : ℕ∞ :=
  ENat.recTopCoe ⊤ (fun n => if rounded n < limit then (rounded n : ℕ∞) else ⊤) exact

theorem attained_top : attained ⊤ = ⊤ := rfl

theorem attained_coe (n : Nat) :
    attained n = if rounded n < limit then (rounded n : ℕ∞) else ⊤ := rfl

theorem attained_mono {a b : ℕ∞} (order : a ≤ b) : attained a ≤ attained b := by
  induction b using ENat.recTopCoe with
  | top => exact le_top
  | coe n =>
    induction a using ENat.recTopCoe with
    | top => exact absurd order (by simp)
    | coe m =>
      have less := rounded_mono (ENat.natCast_le_natCast.mp order)
      rw [attained_coe, attained_coe]
      by_cases small : rounded n < limit
      · rw [if_pos small, if_pos (Nat.lt_of_le_of_lt less small)]
        exact ENat.natCast_le_natCast.mpr less
      · rw [if_neg small]
        exact le_top

theorem attained_zero : attained 0 = 0 := by
  have small : rounded 0 < limit := by
    rw [rounded_zero]
    exact limit_pos
  have coe := attained_coe 0
  rw [if_pos small, rounded_zero] at coe
  exact coe

theorem units_zero (sign : Sign) : units (.zero sign) = 0 := rfl

/-- Rounding leaves what is a double already. -/
theorem rounded_units {f : UnpackedFloat} (canonical : Canonical f) :
    rounded (units f * unity) = units f := by
  have none (zero : units f = 0) : rounded (units f * unity) = units f := by
    rw [zero, Nat.zero_mul, rounded_zero]
  cases f with
  | infinity sign => exact none rfl
  | notANumber => exact none rfl
  | zero sign => exact none rfl
  | finite sign m e positive =>
    obtain ⟨digits, bound, full⟩ := canonical
    simp only [units, unity]
    generalize lift : (e + 1074).toNat = j
    have log : m.log2 ≤ 52 := Nat.le_of_lt_succ ((Nat.log2_lt (by omega)).mpr digits)
    have shift : max (m.log2 + (j + 1074) - 52) 1074 = j + 1074 := by
      rcases full with long | least
      · have exact : m.log2 = 52 := (Nat.log2_eq_iff (by omega)).mpr ⟨long, digits⟩
        omega
      · omega
    have whole := nearest_scale m 0 (j + 1074)
    rw [Nat.zero_add, nearest_zero] at whole
    rw [Nat.mul_assoc, ← Nat.pow_add, rounded, log2_scale positive, shift, whole, Nat.add_sub_cancel]

theorem units_round {m : Nat} {e : Int} (positive : 0 < m) (bound : -1074 ≤ e) :
    let sum := UnpackedFloat.round Format.binary64 .positive m e
    units sum = rounded (m * 2 ^ (e + 1074).toNat * unity) ∧ NotNegative sum ∧ Canonical sum := by
  simp only [UnpackedFloat.round, target_eq, decreaseExponent, Nat.shiftLeft_eq]
  generalize shift : (e - max ((m.log2 : Int) + e - 52) (-1074)).toNat = j
  have log := log2_scale positive j
  have some : 0 < m * 2 ^ j := Nat.mul_pos positive (Nat.two_pow_pos j)
  have fits : e - j ≤ max (((m * 2 ^ j).log2 : Int) + (e - j) - 52) (-1074) := by
    rw [log]
    omega
  obtain ⟨k, cut⟩ := Int.le.dest fits
  have least : -1074 ≤ e - j + k := by omega
  obtain ⟨amount, sign⟩ := units_assemble (nearest_room cut.symm) least
  rw [roundWithAccuracy_eq .positive (m * 2 ^ j) (e - j) (k := k) (by omega)]
  refine ⟨?_, sign, canonical_assemble .positive least (nearest_full some cut.symm)⟩
  have exact_eq : m * 2 ^ (e + 1074).toNat * unity = m * 2 ^ j * 2 ^ (e - j + 2148).toNat := by
    have power : (e + 1074).toNat + 1074 = j + (e - j + 2148).toNat := by omega
    rw [unity, Nat.mul_assoc, ← Nat.pow_add, power, Nat.pow_add, Nat.mul_assoc]
  have digitsLost : max ((m * 2 ^ j).log2 + (e - j + 2148).toNat - 52) 1074 =
      k + (e - j + 2148).toNat := by omega
  have power : k + (e - j + 2148).toNat - 1074 = (e - j + k + 1074).toNat := by omega
  rw [amount, exact_eq, rounded, log2_scale some, digitsLost, nearest_scale, power]

theorem units_add_finite {m m' : Nat} {e e' : Int} {positive : 0 < m} {positive' : 0 < m'}
    (bound : -1074 ≤ e) (bound' : -1074 ≤ e') :
    let total := UnpackedFloat.add Format.binary64 (.finite .positive m e positive)
      (.finite .positive m' e' positive')
    units total = rounded ((m * 2 ^ (e + 1074).toNat + m' * 2 ^ (e' + 1074).toNat) * unity) ∧
      NotNegative total ∧ Canonical total := by
  intro total
  have aligned : m * 2 ^ (e + 1074).toNat + m' * 2 ^ (e' + 1074).toNat =
      (m * 2 ^ (e - min e e').toNat + m' * 2 ^ (e' - min e e').toNat) *
        2 ^ (min e e' + 1074).toNat := by
    have first : (e + 1074).toNat = (e - min e e').toNat + (min e e' + 1074).toNat := by omega
    have second : (e' + 1074).toNat = (e' - min e e').toNat + (min e e' + 1074).toNat := by omega
    rw [first, second, Nat.pow_add, Nat.pow_add, ← Nat.mul_assoc, ← Nat.mul_assoc, Nat.add_mul]
  have some : 0 < m * 2 ^ (e - min e e').toNat + m' * 2 ^ (e' - min e e').toNat :=
    Nat.add_pos_left (Nat.mul_pos positive (Nat.two_pow_pos _)) _
  rw [show total = _ from add_of_positive positive positive', aligned]
  exact units_round some (by omega)

theorem units_add {f g : UnpackedFloat} (left : NotNegative f) (right : NotNegative g)
    (canonical : Canonical f) (canonical' : Canonical g) :
    units (UnpackedFloat.add Format.binary64 f g) = rounded ((units f + units g) * unity) ∧
      NotNegative (UnpackedFloat.add Format.binary64 f g) ∧
      Canonical (UnpackedFloat.add Format.binary64 f g) := by
  cases f with
  | infinity sign => exact left.elim
  | notANumber => exact left.elim
  | zero sign =>
    rw [units_zero, Nat.zero_add, rounded_units canonical']
    cases g with
    | infinity sign' => exact right.elim
    | notANumber => exact right.elim
    | zero sign' => cases sign <;> cases sign' <;> exact ⟨rfl, trivial, trivial⟩
    | finite sign' m e positive => exact ⟨rfl, right, canonical'⟩
  | finite sign m e positive =>
    cases sign with
    | negative => exact left.elim
    | positive =>
      cases g with
      | infinity sign' => exact right.elim
      | notANumber => exact right.elim
      | zero sign' =>
        rw [units_zero, Nat.add_zero, rounded_units canonical]
        exact ⟨rfl, left, canonical⟩
      | finite sign' m' e' positive' =>
        cases sign' with
        | negative => exact right.elim
        | positive =>
          exact units_add_finite canonical.2.1 canonical'.2.1

theorem scaled_lt_iff {m j k : Nat} (digits : m < 2 ^ 53) (full : 2 ^ 52 ≤ m ∨ j ≤ k) :
    m * 2 ^ j < 2 ^ 53 * 2 ^ k ↔ j ≤ k := by
  constructor
  · intro small
    by_contra large
    have long : 2 ^ 52 ≤ m := full.resolve_right large
    have power : 53 + k = 52 + (k + 1) := by omega
    have beyond : 2 ^ 53 * 2 ^ k ≤ m * 2 ^ j := by
      calc 2 ^ 53 * 2 ^ k
          = 2 ^ 52 * 2 ^ (k + 1) := by rw [← Nat.pow_add, ← Nat.pow_add, power]
        _ ≤ 2 ^ 52 * 2 ^ j := Nat.mul_le_mul_left _ (Nat.pow_le_pow_right (by decide) (by omega))
        _ ≤ m * 2 ^ j := Nat.mul_le_mul_right _ long
    exact Nat.not_le_of_lt small beyond
  · intro small
    calc m * 2 ^ j
        < 2 ^ 53 * 2 ^ j := Nat.mul_lt_mul_of_pos_right digits (Nat.two_pow_pos _)
      _ ≤ 2 ^ 53 * 2 ^ k := Nat.mul_le_mul_left _ (Nat.pow_le_pow_right (by decide) small)

theorem units_lt_limit {sign : Sign} {m : Nat} {e : Int} {positive : 0 < m}
    (canonical : Canonical (.finite sign m e positive)) :
    units (.finite sign m e positive) < limit ↔ e ≤ 971 := by
  obtain ⟨digits, bound, full⟩ := canonical
  have short : 2 ^ 52 ≤ m ∨ (e + 1074).toNat ≤ 2045 := full.imp_right fun least => by omega
  rw [units, limit, scaled_lt_iff digits short]
  omega

theorem heightOf_overflow {f : UnpackedFloat} (sign : NotNegative f) (canonical : Canonical f) :
    AtLeastZero (overflow f) ∧ heightOf (overflow f) = if units f < limit then (units f : ℕ∞) else ⊤ := by
  cases f with
  | infinity sign => exact sign.elim
  | notANumber => exact sign.elim
  | zero sign =>
    rw [units_zero, if_pos limit_pos]
    exact ⟨trivial, rfl⟩
  | finite sign' m e positive =>
    cases sign' with
    | negative => exact sign.elim
    | positive =>
      have small := units_lt_limit canonical
      by_cases fits : e ≤ 971
      · rw [if_pos (small.mpr fits), overflow, if_pos fits]
        exact ⟨trivial, rfl⟩
      · rw [if_neg (mt small.mp fits), overflow, if_neg fits]
        exact ⟨trivial, rfl⟩

theorem AtLeastZero.cases {f : UnpackedFloat} (least : AtLeastZero f) :
    f = .infinity .positive ∨ NotNegative f ∧ heightOf f = units f := by
  cases f with
  | infinity sign =>
    cases sign with
    | negative => exact least.elim
    | positive => exact .inl rfl
  | notANumber => exact least.elim
  | zero sign => exact .inr ⟨trivial, rfl⟩
  | finite sign m e positive =>
    cases sign with
    | negative => exact least.elim
    | positive => exact .inr ⟨trivial, rfl⟩

/-- A result that is not infinite has the height of its exact amount. -/
theorem heightOf_exact {f : UnpackedFloat} {exact : Nat} (amount : units f = rounded exact)
    (sign : NotNegative f) (canonical : Canonical f) :
    AtLeastZero (overflow f) ∧ heightOf (overflow f) = attained exact := by
  rw [attained_coe, ← amount]
  exact heightOf_overflow sign canonical

theorem heightOf_add {f g : UnpackedFloat} (left : AtLeastZero f) (right : AtLeastZero g)
    (canonical : Canonical f) (canonical' : Canonical g) :
    let sum := UnpackedFloat.add Format.binary64 f g
    Canonical sum ∧ AtLeastZero (overflow sum) ∧
      heightOf (overflow sum) = attained ((heightOf f + heightOf g) * unity) := by
  have some : (unity : ℕ∞) ≠ 0 := by exact_mod_cast Nat.pos_iff_ne_zero.mp unity_pos
  rcases left.cases with rfl | ⟨sign, amount⟩
  · rw [heightOf, top_add, ENat.top_mul some, attained_top]
    rcases right.cases with rfl | ⟨sign', -⟩
    · exact ⟨trivial, trivial, rfl⟩
    · cases g with
      | infinity sign => exact sign'.elim
      | notANumber => exact sign'.elim
      | zero sign => exact ⟨trivial, trivial, rfl⟩
      | finite sign m e positive => exact ⟨trivial, trivial, rfl⟩
  · rcases right.cases with rfl | ⟨sign', amount'⟩
    · rw [heightOf.eq_1, add_top, ENat.top_mul some, attained_top]
      cases f with
      | infinity sign' => exact sign.elim
      | notANumber => exact sign.elim
      | zero sign' => exact ⟨trivial, trivial, rfl⟩
      | finite sign' m e positive => exact ⟨trivial, trivial, rfl⟩
    · obtain ⟨sum, kept, made⟩ := units_add sign sign' canonical canonical'
      have exact_eq : ((units f : ℕ∞) + units g) * unity = ((units f + units g) * unity : Nat) := by
        push_cast
        rfl
      rw [amount, amount', exact_eq]
      exact ⟨made, heightOf_exact sum kept made⟩

/-- A product is not a number only when a zero meets infinity. -/
theorem heightOf_mul {f g : UnpackedFloat} (left : AtLeastZero f) (right : AtLeastZero g)
    (canonical : Canonical f) (canonical' : Canonical g) :
    let product := UnpackedFloat.mul Format.binary64 f g
    Canonical product ∧
      (product = .notANumber ∧ (heightOf f = 0 ∨ heightOf g = 0) ∨
        AtLeastZero (overflow product) ∧
          heightOf (overflow product) = attained (heightOf f * heightOf g)) := by
  have some {m : Nat} {e : Int} (positive : 0 < m) : ((m * 2 ^ (e + 1074).toNat : Nat) : ℕ∞) ≠ 0 := by
    exact_mod_cast Nat.pos_iff_ne_zero.mp (Nat.mul_pos positive (Nat.two_pow_pos _))
  rcases left.cases with rfl | ⟨sign, amount⟩
  · rcases right.cases with rfl | ⟨sign', amount'⟩
    · exact ⟨trivial, .inr ⟨trivial, rfl⟩⟩
    · cases g with
      | infinity sign => exact sign'.elim
      | notANumber => exact sign'.elim
      | zero sign => exact ⟨trivial, .inl ⟨rfl, .inr rfl⟩⟩
      | finite sign m e positive =>
        cases sign with
        | negative => exact sign'.elim
        | positive =>
          refine ⟨trivial, .inr ⟨trivial, ?_⟩⟩
          rw [amount', heightOf.eq_1 .positive, units, ENat.top_mul (some positive), attained_top]
          rfl
  · rcases right.cases with rfl | ⟨sign', amount'⟩
    · cases f with
      | infinity sign' => exact sign.elim
      | notANumber => exact sign.elim
      | zero sign' => exact ⟨trivial, .inl ⟨rfl, .inl rfl⟩⟩
      | finite sign' m e positive =>
        cases sign' with
        | negative => exact sign.elim
        | positive =>
          refine ⟨trivial, .inr ⟨trivial, ?_⟩⟩
          rw [amount, heightOf.eq_1 .positive, units, ENat.mul_top (some positive), attained_top]
          rfl
    · obtain ⟨product, kept, made⟩ := units_mul sign sign' canonical canonical'
      rw [amount, amount', ← Nat.cast_mul]
      exact ⟨made, .inr (heightOf_exact product kept made)⟩

/-- A double from zero to infinity. -/
def Nonnegative (x : Float) : Prop := AtLeastZero (number x)

def height (x : Float) : ℕ∞ := heightOf (number x)

variable {x y : Float}

theorem height_add (left : Nonnegative x) (right : Nonnegative y) :
    Nonnegative (x + y) ∧ height (x + y) = attained ((height x + height y) * unity) := by
  obtain ⟨made, sum⟩ := heightOf_add left right (canonical_number x) (canonical_number y)
  unfold Nonnegative height
  rw [number_add, unpack_pack made]
  exact sum

theorem height_mul (left : Nonnegative x) (right : Nonnegative y) :
    number (x * y) = .notANumber ∧ (height x = 0 ∨ height y = 0) ∨
      Nonnegative (x * y) ∧ height (x * y) = attained (height x * height y) := by
  obtain ⟨made, product⟩ := heightOf_mul left right (canonical_number x) (canonical_number y)
  unfold Nonnegative height
  rw [number_mul, unpack_pack made]
  rcases product with ⟨none, zero⟩ | product
  · rw [none]
    exact .inl ⟨rfl, zero⟩
  · exact .inr product

theorem unity_ne_zero : (unity : ℕ∞) ≠ 0 := by exact_mod_cast Nat.pos_iff_ne_zero.mp unity_pos

theorem units_small (x : Float) : units (number x) < limit := by
  obtain ⟨canonical, kept⟩ := canonical_unpack x.toModel
  change Canonical (number x) at canonical
  change overflow (number x) = number x at kept
  cases shape : number x with
  | infinity sign => exact limit_pos
  | notANumber => exact limit_pos
  | zero sign => exact limit_pos
  | finite sign m e positive =>
    rw [shape] at canonical kept
    rw [units_lt_limit canonical]
    by_contra large
    rw [overflow, if_neg large] at kept
    cases kept

/-- The height of a double is attained as it is. -/
theorem attained_height (nonnegative : Nonnegative x) : attained (height x * unity) = height x := by
  rcases AtLeastZero.cases nonnegative with top | ⟨-, amount⟩
  · have high : height x = ⊤ := by rw [height, top, heightOf]
    rw [high, ENat.top_mul unity_ne_zero, attained_top]
  · have exact_eq : height x * unity = (units (number x) * unity : Nat) := by
      rw [height, amount]
      push_cast
      rfl
    rw [exact_eq, attained_coe, rounded_units (canonical_number x), if_pos (units_small x), height, amount]

theorem height_le_add (left : Nonnegative x) (right : Nonnegative y) :
    height x ≤ height (x + y) ∧ height y ≤ height (x + y) := by
  rw [(height_add left right).2]
  constructor
  · calc height x
        = attained (height x * unity) := (attained_height left).symm
      _ ≤ attained ((height x + height y) * unity) :=
        attained_mono (mul_le_mul_left (le_add_right (le_refl _)) _)
  · calc height y
        = attained (height y * unity) := (attained_height right).symm
      _ ≤ attained ((height x + height y) * unity) :=
        attained_mono (mul_le_mul_left (le_add_left (le_refl _)) _)

theorem nonnegative_zero : Nonnegative 0.0 := by
  rw [Nonnegative, number_zero]
  trivial

theorem nonnegative_one : Nonnegative 1.0 := by
  rw [Nonnegative, number_one]
  trivial

theorem height_zero : height 0.0 = 0 := by
  rw [height, number_zero]
  rfl

theorem height_one : height 1.0 = unity := by
  have level : units (number 1.0) = unity := level_one
  rw [number_one] at level
  rw [height, number_one, heightOf, level]
  intro sign same
  cases same

theorem lt_iff_height (left : Nonnegative x) (right : Nonnegative y) : x < y ↔ height x < height y := by
  rcases AtLeastZero.cases left with top | ⟨sign, amount⟩
  · have high : height x = ⊤ := by rw [height, top, heightOf]
    rw [high, lt_iff_compare, top]
    rcases AtLeastZero.cases right with top' | ⟨sign', -⟩
    · rw [top']
      simp [UnpackedFloat.compare]
    · cases shape : number y with
      | infinity sign => exact absurd sign' (by rw [shape]; exact id)
      | notANumber => exact absurd sign' (by rw [shape]; exact id)
      | zero sign => simp [UnpackedFloat.compare]
      | finite sign m e positive => simp [UnpackedFloat.compare]
  · rcases AtLeastZero.cases right with top' | ⟨sign', amount'⟩
    · have high' : height y = ⊤ := by rw [height, top', heightOf]
      have less : height x < height y := by
        rw [high', height, amount]
        exact ENat.natCast_lt_top _
      refine iff_of_true ?_ less
      rw [lt_iff_compare, top']
      cases shape : number x with
      | infinity sign' => exact absurd sign (by rw [shape]; exact id)
      | notANumber => exact absurd sign (by rw [shape]; exact id)
      | zero sign' => rfl
      | finite sign' m e positive => cases sign' <;> rfl
    · rw [lt_iff_level sign sign', height, height, amount, amount', ENat.natCast_lt_natCast]
      rfl

theorem pos_iff_height (nonnegative : Nonnegative x) : 0.0 < x ↔ 0 < height x := by
  rw [lt_iff_height nonnegative_zero nonnegative, height_zero]

theorem isNaN_iff : x.isNaN = true ↔ number x = .notANumber := by
  change (number x).isNaN = true ↔ _
  cases number x <;> simp [UnpackedFloat.isNaN]

theorem nan_add (undefined : number x = .notANumber ∨ number y = .notANumber) :
    number (x + y) = .notANumber := by
  rw [number_add]
  rcases undefined with nan | nan
  · rw [nan]
    cases number y <;> exact unpack_pack (f := .notANumber) trivial
  · rw [nan]
    cases number x <;> exact unpack_pack (f := .notANumber) trivial

theorem nan_mul (undefined : number x = .notANumber ∨ number y = .notANumber) :
    number (x * y) = .notANumber := by
  rw [number_mul]
  rcases undefined with nan | nan
  · rw [nan]
    cases number y <;> exact unpack_pack (f := .notANumber) trivial
  · rw [nan]
    cases number x <;> exact unpack_pack (f := .notANumber) trivial

end StochasticGrammar.Double

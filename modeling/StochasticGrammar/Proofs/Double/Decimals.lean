import StochasticGrammar.Decimal.Reader
import StochasticGrammar.Proofs.Double.Intervals

/-!
Decimal numbers as doubles. A number is read as the double in whose interval it lies, whether it is
made from exact doubles by one operation or from large naturals.
-/

namespace StochasticGrammar.Double

open Float.Model Float.Model.UnpackedFloat Decimal

section

variable {v : Magnitude} {n d m m' : Nat} {e e' : Int}

theorem round_near (proper : v.Proper) (positive : 0 < d)
    (fits : e ≤ max (((n / d).log2 : Int) + e - 52) (-1074)) (near : v.Near ((n : ℚ) / d * 2 ^ e))
    (sign : Sign) :
    roundWithAccuracy Format.binary64 sign (n / d) e (accuracyOfFraction (n % d) d) =
      .finite sign v.mantissa v.exponent proper.positive := by
  obtain ⟨k, target⟩ := Int.le.dest fits
  rw [roundQuotient_eq sign n positive e (k := k) (by omega)]
  exact assemble_near proper positive target.symm near sign

theorem round_near_whole (proper : v.Proper) (fits : e ≤ max ((m.log2 : Int) + e - 52) (-1074))
    (near : v.Near (m * 2 ^ e)) (sign : Sign) :
    roundWithAccuracy Format.binary64 sign m e .exact =
      .finite sign v.mantissa v.exponent proper.positive := by
  have whole := round_near (n := m) (d := 1) proper Nat.one_pos (by rwa [Nat.div_one])
    (by rwa [Nat.cast_one, div_one]) sign
  rw [Nat.div_one, Nat.mod_one] at whole
  exact whole

theorem round_near_exact (positive : 0 < m) (proper : v.Proper) (near : v.Near (m * 2 ^ e)) (sign : Sign) :
    UnpackedFloat.round Format.binary64 sign m e = .finite sign v.mantissa v.exponent proper.positive := by
  simp only [UnpackedFloat.round, target_eq, decreaseExponent, Nat.shiftLeft_eq]
  generalize shift : (e - max ((m.log2 : Int) + e - 52) (-1074)).toNat = j
  have log := log2_scale positive j
  have same : (m : ℚ) * 2 ^ e = ((m * 2 ^ j : ℕ) : ℚ) * 2 ^ (e - j) := by
    rw [zpow_sub₀ two_ne_zero, zpow_natCast]
    push_cast
    field_simp
  rw [same] at near
  exact round_near_whole proper (by omega) near sign

theorem add_near (positive : 0 < m) (positive' : 0 < m') (proper : v.Proper)
    (near : v.Near (m * 2 ^ e + m' * 2 ^ e')) :
    UnpackedFloat.add Format.binary64 (.finite .positive m e positive) (.finite .positive m' e' positive') =
      .finite .positive v.mantissa v.exponent proper.positive := by
  have some : 0 < m * 2 ^ (e - min e e').toNat + m' * 2 ^ (e' - min e e').toNat :=
    Nat.add_pos_left (Nat.mul_pos positive (Nat.two_pow_pos _)) _
  have aligned (m : Nat) {e least : Int} (lower : least ≤ e) :
      (m : ℚ) * 2 ^ e = ((m * 2 ^ (e - least).toNat : ℕ) : ℚ) * 2 ^ least := by
    have power : ((e - least).toNat : Int) + least = e := by omega
    rw [Nat.cast_mul, mul_assoc, two_pow_mul_zpow, power]
  rw [aligned m (min_le_left e e'), aligned m' (min_le_right e e'), ← add_mul, ← Nat.cast_add] at near
  rw [add_of_positive]
  exact round_near_exact some proper near .positive

theorem mul_near (positive : 0 < m) (positive' : 0 < m') (proper : v.Proper) (long : 2 ^ 52 ≤ m * m')
    (near : v.Near (m * 2 ^ e * (m' * 2 ^ e'))) :
    UnpackedFloat.mul Format.binary64 (.finite .positive m e positive) (.finite .positive m' e' positive') =
      .finite .positive v.mantissa v.exponent proper.positive := by
  have digits : 52 ≤ (m * m').log2 :=
    (Nat.le_log2 (Nat.pos_iff_ne_zero.mp (Nat.mul_pos positive positive'))).mpr long
  have exact_eq : (m : ℚ) * 2 ^ e * (m' * 2 ^ e') = ((m * m' : ℕ) : ℚ) * 2 ^ (e + e') := by
    rw [zpow_add₀ two_ne_zero]
    push_cast
    ring
  rw [exact_eq] at near
  exact round_near_whole proper (by omega) near .positive

theorem div_near (positive : 0 < m) (positive' : 0 < m') (proper : v.Proper)
    (near : v.Near (m * 2 ^ e / (m' * 2 ^ e'))) :
    UnpackedFloat.div Format.binary64 (.finite .positive m e positive) (.finite .positive m' e' positive') =
      .finite .positive v.mantissa v.exponent proper.positive := by
  have target : Format.binary64.targetExponent (totalExponent m e - totalExponent m' e') =
      max ((m.log2 : Int) - m'.log2 + e - e' - 53) (-1074) := by
    simp only [Format.targetExponent, totalExponent, Format.mantissaBits, Format.minExponent]
    omega
  simp only [UnpackedFloat.div, divCore, target, Nat.shiftLeft_eq]
  generalize place : min (e - e') (max ((m.log2 : Int) - m'.log2 + e - e' - 53) (-1074)) = p
  generalize shift : (e - e' - p).toNat = j
  have some : m' ≠ 0 := Nat.pos_iff_ne_zero.mp positive'
  have exact_eq : (m : ℚ) * 2 ^ e / (m' * 2 ^ e') = ((m * 2 ^ j : ℕ) : ℚ) / m' * 2 ^ p := by
    have power : (2 : ℚ) ^ j = 2 ^ (e - e' - p) := by
      rw [← zpow_natCast]
      congr 1
      omega
    have den : (m' : ℚ) ≠ 0 := by exact_mod_cast some
    push_cast
    rw [power, zpow_sub₀ two_ne_zero, zpow_sub₀ two_ne_zero]
    field_simp
  rw [exact_eq] at near
  apply round_near proper positive' _ near
  by_cases least : p ≤ -1074
  · omega
  · have long : 2 ^ (52 + (m'.log2 + 1)) ≤ m * 2 ^ j := by
      calc 2 ^ (52 + (m'.log2 + 1))
          ≤ 2 ^ (m.log2 + j) := Nat.pow_le_pow_right (by decide) (by omega)
        _ = 2 ^ m.log2 * 2 ^ j := Nat.pow_add _ _ _
        _ ≤ m * 2 ^ j := Nat.mul_le_mul_right _ (Nat.log2_self_le (Nat.pos_iff_ne_zero.mp positive))
    have quotient : 2 ^ 52 ≤ m * 2 ^ j / m' := by
      rw [Nat.le_div_iff_mul_le positive']
      calc 2 ^ 52 * m'
          ≤ 2 ^ 52 * 2 ^ (m'.log2 + 1) := Nat.mul_le_mul_left _ Nat.lt_log2_self.le
        _ = 2 ^ (52 + (m'.log2 + 1)) := (Nat.pow_add _ _ _).symm
        _ ≤ m * 2 ^ j := long
    have digits : 52 ≤ (m * 2 ^ j / m').log2 := (Nat.le_log2 (by omega)).mpr quotient
    omega

end

/-- A double that stands for a natural, exactly and with all its digits. -/
def Stands (f : UnpackedFloat) (n : Nat) : Prop :=
  ∃ m e positive, f = .finite .positive m e positive ∧ 2 ^ 52 ≤ m ∧ (m : ℚ) * 2 ^ e = n

theorem proper_number {v : Magnitude} (proper : v.Proper) (sign : Sign) {f : UnpackedFloat}
    (same : f = .finite sign v.mantissa v.exponent proper.positive) : (pack f).unpack = f := by
  have canonical : Canonical f := by
    rw [same]
    exact ⟨proper.digits, proper.least, proper.full⟩
  rw [unpack_pack canonical, same, overflow, if_pos proper.most]

theorem stands_toFloat {n : Nat} (positive : 0 < n) (small : n < 2 ^ 53) :
    Stands (number n.toUInt64.toFloat) n := by
  have some : n ≠ 0 := Nat.pos_iff_ne_zero.mp positive
  have digits : n.log2 ≤ 52 := Nat.le_of_lt_succ ((Nat.log2_lt some).mpr small)
  have low := Nat.log2_self_le some
  have high : n < 2 ^ (n.log2 + 1) := Nat.lt_log2_self
  generalize lift : 52 - n.log2 = j
  have full : 2 ^ 52 = 2 ^ n.log2 * 2 ^ j := by
    rw [← Nat.pow_add]
    congr 1
    omega
  have top : 2 ^ 53 = 2 ^ (n.log2 + 1) * 2 ^ j := by
    rw [← Nat.pow_add]
    congr 1
    omega
  have long : 2 ^ 52 ≤ n * 2 ^ j := by
    rw [full]
    exact Nat.mul_le_mul_right _ low
  have short : n * 2 ^ j < 2 ^ 53 := by
    rw [top]
    exact Nat.mul_lt_mul_of_pos_right high (Nat.two_pow_pos j)
  have proper : (⟨n * 2 ^ j, -j⟩ : Magnitude).Proper :=
    ⟨Nat.lt_of_lt_of_le (by decide) long, short, by simp only; omega, by simp only; omega, .inl long⟩
  have value : ((n * 2 ^ j : ℕ) : ℚ) * 2 ^ (-(j : Int)) = n := by
    push_cast
    rw [zpow_neg, zpow_natCast, mul_assoc, mul_inv_cancel₀ (pow_ne_zero j two_ne_zero), mul_one]
  have near : (⟨n * 2 ^ j, -j⟩ : Magnitude).Near (n * 2 ^ (0 : Int)) := by
    have own : (⟨n * 2 ^ j, -j⟩ : Magnitude).Near ((n * 2 ^ j : ℕ) * 2 ^ (-(j : Int))) :=
      Magnitude.near_value proper.positive
    rwa [value, ← mul_one (n : ℚ), ← zpow_zero 2] at own
  have round : UnpackedFloat.round Format.binary64 .positive n 0 =
      .finite .positive (n * 2 ^ j) (-j) proper.positive := round_near_exact positive proper near .positive
  have made : UnpackedFloat.ofUInt64 Format.binary64 n.toUInt64 =
      .finite .positive (n * 2 ^ j) (-j) proper.positive := by
    have word : n.toUInt64.toNat = n := by
      rw [Nat.toUInt64_eq, UInt64.toNat_ofNat']
      exact Nat.mod_eq_of_lt (Nat.lt_trans small (by decide))
    have above : compare (n : Int) 0 = .gt := Int.compare_eq_gt.mpr (by omega)
    rw [← round]
    simp only [UnpackedFloat.ofUInt64, UnpackedFloat.ofNat, UnpackedFloat.ofInt, UnpackedFloat.normalize, word, above, Int.toNat_natCast]
  have same : number n.toUInt64.toFloat = .finite .positive (n * 2 ^ j) (-j) proper.positive :=
    (proper_number proper .positive made).trans made
  exact ⟨_, _, _, same, long, value⟩

/-- Whether a double is a power of ten in the table of those that are exact. -/
def isPower (k : Nat) : UnpackedFloat → Bool
  | .finite .positive m e _ =>
    decide (2 ^ 52 ≤ m) && decide (-52 ≤ e) && m * 2 ^ (e + 52).toNat == 10 ^ k * 2 ^ 52
  | _ => false

theorem isPower_table : ∀ k : Fin 23, isPower k (number Float.exactlyRepresentablePowersOfTen[k]) = true := by
  decide +kernel

theorem stands_power {k : Nat} {f : UnpackedFloat} (power : isPower k f = true) : Stands f (10 ^ k) := by
  match f, power with
  | .finite .positive m e positive, power =>
    simp only [isPower, Bool.and_eq_true, decide_eq_true_eq, beq_iff_eq] at power
    obtain ⟨⟨long, least⟩, product⟩ := power
    refine ⟨m, e, positive, rfl, long, ?_⟩
    have lift : ((e + 52).toNat : Int) = e + 52 := by omega
    have cast : (m : ℚ) * 2 ^ ((e + 52).toNat : Int) = 10 ^ k * 2 ^ 52 := by
      rw [zpow_natCast]
      exact_mod_cast product
    rw [lift, zpow_add₀ two_ne_zero, ← mul_assoc] at cast
    push_cast
    exact mul_right_cancel₀ (by norm_num) cast

theorem number_div (x y : Float) :
    number (x / y) = (pack (UnpackedFloat.div Format.binary64 (number x) (number y))).unpack := rfl

section

variable {v : Magnitude} (proper : v.Proper) {m k : Nat}

/-- Small naturals and powers of ten are exact, and one operation rounds once. -/
theorem number_fast (positive : 0 < m) (short : m < 2 ^ 53) (few : k ≤ 22) :
    (v.Near (m / 10 ^ k) →
        number (m.toUInt64.toFloat / getElem Float.exactlyRepresentablePowersOfTen k (Nat.lt_succ_of_le few)) =
          .finite .positive v.mantissa v.exponent proper.positive) ∧
      (v.Near (m * 10 ^ k) →
        number (m.toUInt64.toFloat * getElem Float.exactlyRepresentablePowersOfTen k (Nat.lt_succ_of_le few)) =
          .finite .positive v.mantissa v.exponent proper.positive) := by
  obtain ⟨a, e, some, left, long, amount⟩ := stands_toFloat positive short
  obtain ⟨b, e', some', right, long', amount'⟩ :=
    stands_power (isPower_table ⟨k, Nat.lt_succ_of_le few⟩)
  have amount' : (b : ℚ) * 2 ^ e' = 10 ^ k := by
    rw [amount']
    push_cast
    rfl
  constructor
  · intro near
    rw [← amount, ← amount'] at near
    have quotient := div_near some some' proper near
    rw [← left, ← right] at quotient
    rw [number_div]
    exact (proper_number proper .positive quotient).trans quotient
  · intro near
    rw [← amount, ← amount'] at near
    have both : 2 ^ 52 ≤ a * b := Nat.le_trans long (Nat.le_mul_of_pos_right a some')
    have product := mul_near some some' proper both near
    rw [← left, ← right] at product
    rw [number_mul]
    exact (proper_number proper .positive product).trans product

theorem number_slow {e : Int} (positive : 0 < m) (most : e ≤ 2048) (least : -(2048 + (m.log2 : Int)) ≤ e)
    (near : v.Near (m * 10 ^ e)) :
    number (Float.ofModel (Float.Model.ofScientific m e)) =
      .finite .positive v.mantissa v.exponent proper.positive := by
  have some : m ≠ 0 := Nat.pos_iff_ne_zero.mp positive
  have bits : ((2 : Int) ^ Format.binary64.exponentBits) = 2048 := by decide
  have rounded : UnpackedFloat.ofScientific Format.binary64 m e =
      .finite .positive v.mantissa v.exponent proper.positive := by
    unfold UnpackedFloat.ofScientific
    rw [dif_neg some, if_neg (by omega), if_neg (by omega)]
    by_cases whole : 0 ≤ e
    · rw [if_pos whole]
      apply mul_near _ _ proper
      · rw [Nat.shiftLeft_eq]
        calc 2 ^ 52
            ≤ m * 2 ^ 53 * 1 := by omega
          _ ≤ m * 2 ^ 53 * 10 ^ e.toNat := Nat.mul_le_mul_left _ (Nat.pow_pos (by decide))
      · have power : (10 : ℚ) ^ e = ((10 ^ e.toNat : ℕ) : ℚ) := by
          push_cast
          rw [← zpow_natCast, Int.toNat_of_nonneg whole]
        have exact_eq : ((m <<< 53 : ℕ) : ℚ) * 2 ^ (-(53 : Int)) = m := by
          rw [Nat.shiftLeft_eq]
          push_cast
          rw [zpow_neg, mul_assoc]
          norm_num
        rw [power] at near
        simp only [zpow_zero, mul_one]
        exact exact_eq.symm ▸ near
    · rw [if_neg whole]
      apply div_near _ _ proper
      have power : (10 : ℚ) ^ e = (((10 ^ (-e).toNat : ℕ) : ℚ))⁻¹ := by
        push_cast
        rw [← zpow_natCast, Int.toNat_of_nonneg (by omega), zpow_neg, inv_inv]
      rw [power, ← div_eq_mul_inv] at near
      simp only [zpow_zero, mul_one]
      exact near
  exact (proper_number proper .positive rounded).trans rounded

/-- The double in whose interval a decimal number lies. -/
theorem number_ofScientific {small : Bool} (positive : 0 < m) (most : small = false → k ≤ 2048)
    (least : small = true → k ≤ 2048 + m.log2)
    (near : v.Near (m * 10 ^ (if small then -(k : Int) else k))) :
    number (Float.ofScientific m small k) = .finite .positive v.mantissa v.exponent proper.positive := by
  unfold Float.ofScientific
  by_cases fast : m < 2 ^ 53 ∧ k ≤ 22
  · rw [dif_pos fast]
    obtain ⟨quotient, product⟩ := number_fast proper positive fast.1 fast.2
    cases small with
    | true =>
      apply quotient
      rw [if_pos rfl, zpow_neg, zpow_natCast, ← div_eq_mul_inv] at near
      exact near
    | false =>
      apply product
      rw [if_neg Bool.false_ne_true, zpow_natCast] at near
      exact near
  · rw [dif_neg fast]
    cases small with
    | true =>
      have less := least rfl
      have exponent : Int.negOfNat k = -(k : Int) := Int.negOfNat_eq
      simp only [if_pos, exponent] at near ⊢
      exact number_slow proper positive (by omega) (by omega) near
    | false =>
      have less := most rfl
      simp only [Bool.false_eq_true, if_false] at near ⊢
      exact number_slow (e := (k : Int)) proper positive (by omega) (by omega) near

end

end StochasticGrammar.Double

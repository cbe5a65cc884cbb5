import StochasticGrammar.Decimal.Shortest
import StochasticGrammar.Proofs.Double.Sums

/-!
The exact values that round to a double form an interval around it. A quotient within the interval of
a magnitude rounds to it, whatever numerator and denominator it is given by.
-/

namespace StochasticGrammar

namespace Decimal.Magnitude

def value (v : Magnitude) : ℚ := v.mantissa * 2 ^ v.exponent

def low (v : Magnitude) : ℚ := ((4 * v.mantissa - v.gapBelow : ℕ) : ℚ) * 2 ^ (v.exponent - 2)

def high (v : Magnitude) : ℚ := ((4 * v.mantissa + 2 : ℕ) : ℚ) * 2 ^ (v.exponent - 2)

/-- The exact values next to a magnitude; the ends of the interval are among them when its mantissa is
even. -/
def Near (v : Magnitude) (q : ℚ) : Prop :=
  if v.mantissa % 2 = 0 then v.low ≤ q ∧ q ≤ v.high else v.low < q ∧ q < v.high

/-- The magnitudes of the finite doubles other than zero. -/
structure Proper (v : Magnitude) : Prop where
  positive : 0 < v.mantissa
  digits : v.mantissa < 2 ^ 53
  least : -1074 ≤ v.exponent
  most : v.exponent ≤ 971
  full : 2 ^ 52 ≤ v.mantissa ∨ v.exponent = -1074

variable {v : Magnitude} {q : ℚ}

theorem gapBelow_le (v : Magnitude) : 1 ≤ v.gapBelow ∧ v.gapBelow ≤ 2 := by
  unfold gapBelow
  split <;> omega

theorem Near.bounds (near : v.Near q) : v.low ≤ q ∧ q ≤ v.high := by
  unfold Near at near
  split at near
  · exact near
  · exact ⟨near.1.le, near.2.le⟩

theorem Near.strict (near : v.Near q) (odd : v.mantissa % 2 = 1) : v.low < q ∧ q < v.high := by
  rwa [Near, if_neg (by omega)] at near

theorem near_value (positive : 0 < v.mantissa) : v.Near v.value := by
  obtain ⟨some, few⟩ := v.gapBelow_le
  have power : (0 : ℚ) < 2 ^ (v.exponent - 2) := zpow_pos two_pos _
  have split : v.value = ((4 * v.mantissa : ℕ) : ℚ) * 2 ^ (v.exponent - 2) := by
    have quarter : (2 : ℚ) ^ v.exponent = 2 ^ (v.exponent - 2) * 4 := by
      rw [zpow_sub₀ two_ne_zero]
      norm_num
    rw [value, quarter]
    push_cast
    ring
  have below : v.low < v.value := by
    rw [low, split]
    exact mul_lt_mul_of_pos_right (by exact_mod_cast (by omega)) power
  have above : v.value < v.high := by
    rw [high, split]
    exact mul_lt_mul_of_pos_right (by exact_mod_cast (by omega)) power
  unfold Near
  split
  · exact ⟨below.le, above.le⟩
  · exact ⟨below, above⟩

end Decimal.Magnitude

namespace Double

open Float.Model Float.Model.UnpackedFloat Decimal

/-- A quotient within half of a unit, with ties to the even. -/
theorem nearestQuotient_eq {n d m : Nat} (positive : 0 < d) (low : 2 * m * d ≤ 2 * n + d)
    (high : 2 * n ≤ 2 * m * d + d)
    (odd : m % 2 = 1 → 2 * m * d < 2 * n + d ∧ 2 * n < 2 * m * d + d) : nearestQuotient n d = m := by
  have whole := Nat.div_add_mod n d
  have below : n % d < d := Nat.mod_lt n positive
  unfold nearestQuotient
  generalize n / d = q at *
  generalize n % d = r at *
  have least : q ≤ m := by
    by_contra less
    have step : (m + 1) * d ≤ q * d := Nat.mul_le_mul_right d (by omega)
    nlinarith
  have most : m ≤ q + 1 := by
    by_contra more
    have step : (q + 2) * d ≤ m * d := Nat.mul_le_mul_right d (by omega)
    nlinarith
  rcases Nat.eq_or_lt_of_le least with rfl | less
  · have same : 2 * q * d = 2 * (d * q) := by ring
    rw [same] at low high odd
    split
    · rfl
    · split <;> omega
  · have next : m = q + 1 := by omega
    subst next
    have same : 2 * (q + 1) * d = 2 * (d * q) + 2 * d := by ring
    rw [same] at low high odd
    split
    · omega
    · split <;> omega

theorem two_zpow_lt {a b : Int} (less : (2 : ℚ) ^ a < 2 ^ b) : a < b :=
  (zpow_lt_zpow_iff_right₀ one_lt_two).mp less

section

variable {v : Magnitude} {n d k : Nat} {e : Int}

theorem quotient_scale (n d : Nat) (e : Int) (k : Nat) :
    (n : ℚ) / d * 2 ^ e = (n : ℚ) / (d * 2 ^ k : ℕ) * 2 ^ (e + k) := by
  have some : (2 : ℚ) ^ k ≠ 0 := pow_ne_zero k two_ne_zero
  rw [zpow_add₀ two_ne_zero, zpow_natCast]
  push_cast
  field_simp

/-- Comparing with quarters of the last place. -/
theorem quarters_lt (a : Nat) (positive : 0 < d) :
    (a : ℚ) * 2 ^ (e - 2) < (n : ℚ) / d * 2 ^ e ↔ a * d < 4 * n := by
  have den : (0 : ℚ) < d := by exact_mod_cast positive
  have quarter : (n : ℚ) / d * 2 ^ e = 4 * n / d * 2 ^ (e - 2) := by
    rw [zpow_sub₀ two_ne_zero]
    norm_num
    ring
  rw [quarter, mul_lt_mul_iff_left₀ (zpow_pos two_pos _), lt_div_iff₀ den]
  norm_cast

theorem lt_quarters (a : Nat) (positive : 0 < d) :
    (n : ℚ) / d * 2 ^ e < (a : ℚ) * 2 ^ (e - 2) ↔ 4 * n < a * d := by
  have den : (0 : ℚ) < d := by exact_mod_cast positive
  have quarter : (n : ℚ) / d * 2 ^ e = 4 * n / d * 2 ^ (e - 2) := by
    rw [zpow_sub₀ two_ne_zero]
    norm_num
    ring
  rw [quarter, mul_lt_mul_iff_left₀ (zpow_pos two_pos _), div_lt_iff₀ den]
  norm_cast

theorem two_pow_mul_zpow (j : Nat) (e : Int) : ((2 ^ j : ℕ) : ℚ) * 2 ^ e = 2 ^ (j + e) := by
  rw [zpow_add₀ two_ne_zero, zpow_natCast]
  push_cast
  rfl

theorem quotient_lt (n : Nat) (positive : 0 < d) (e : Int) :
    (n : ℚ) / d * 2 ^ e < 2 ^ (((n / d).log2 + 1 : ℕ) + e) := by
  have den : (0 : ℚ) < d := by exact_mod_cast positive
  have floor : n / d < 2 ^ ((n / d).log2 + 1) := Nat.lt_log2_self
  rw [← two_pow_mul_zpow]
  apply mul_lt_mul_of_pos_right _ (zpow_pos two_pos e)
  rw [div_lt_iff₀ den]
  exact_mod_cast Nat.lt_mul_of_div_lt floor positive

theorem le_quotient (positive : 0 < d) (whole : n / d ≠ 0) (e : Int) :
    2 ^ ((n / d).log2 + e) ≤ (n : ℚ) / d * 2 ^ e := by
  have den : (0 : ℚ) < d := by exact_mod_cast positive
  have floor : 2 ^ (n / d).log2 ≤ n / d := Nat.log2_self_le whole
  rw [← two_pow_mul_zpow]
  apply mul_le_mul_of_nonneg_right _ (zpow_pos two_pos e).le
  rw [le_div_iff₀ den]
  exact_mod_cast Nat.le_trans (Nat.mul_le_mul_right d floor) (Nat.div_mul_le_self n d)

theorem high_lt (proper : v.Proper) : v.high < 2 ^ (v.exponent + 53) := by
  have digits := proper.digits
  have short : 4 * v.mantissa + 2 < 2 ^ 55 := by omega
  have shift : (2 : ℚ) ^ (v.exponent + 53) = ((2 ^ 55 : ℕ) : ℚ) * 2 ^ (v.exponent - 2) := by
    rw [two_pow_mul_zpow]
    congr 1
    omega
  rw [shift]
  exact mul_lt_mul_of_pos_right (by exact_mod_cast short) (zpow_pos two_pos _)

/-- Below a power of two only the magnitude that is the power itself has its interval. -/
theorem power_of_low_lt (long : 2 ^ 52 ≤ v.mantissa) (less : v.low < 2 ^ (v.exponent + 52)) :
    v.mantissa = 2 ^ 52 := by
  obtain ⟨some, few⟩ := v.gapBelow_le
  have shift : (2 : ℚ) ^ (v.exponent + 52) = ((2 ^ 54 : ℕ) : ℚ) * 2 ^ (v.exponent - 2) := by
    rw [two_pow_mul_zpow]
    congr 1
    omega
  rw [Magnitude.low, shift] at less
  have bound : 4 * v.mantissa - v.gapBelow < 2 ^ 54 := by
    exact_mod_cast lt_of_mul_lt_mul_right less (zpow_pos two_pos _).le
  omega

theorem lt_low (power : v.mantissa = 2 ^ 52) (gap : v.gapBelow = 1) :
    (2 : ℚ) ^ (v.exponent + 51) < v.low := by
  have shift : (2 : ℚ) ^ (v.exponent + 51) = ((2 ^ 53 : ℕ) : ℚ) * 2 ^ (v.exponent - 2) := by
    rw [two_pow_mul_zpow]
    congr 1
    omega
  rw [shift, Magnitude.low, power, gap]
  exact mul_lt_mul_of_pos_right (by norm_num) (zpow_pos two_pos _)

/-- Where the last place of a rounded quotient is: that of the magnitude next to it, or the one below
when the magnitude is a power of two and the quotient is less. -/
theorem place_of_near (proper : v.Proper) (positive : 0 < d)
    (target : max (((n / d).log2 : Int) + e - 52) (-1074) = e + k)
    (near : v.Near ((n : ℚ) / d * 2 ^ e)) :
    e + k = v.exponent ∨ e + k = v.exponent - 1 ∧ v.mantissa = 2 ^ 52 ∧ v.gapBelow = 1 ∧
      (n : ℚ) / d * 2 ^ e < 2 ^ (v.exponent + 52) := by
  obtain ⟨low, high⟩ := near.bounds
  have least := proper.least
  have above := quotient_lt n positive e
  have atMost : e + k ≤ v.exponent := by
    by_contra more
    have whole : n / d ≠ 0 := by
      intro none
      rw [none] at target
      have log : Nat.log2 0 = 0 := by decide
      omega
    have order : ((n / d).log2 : Int) + e < v.exponent + 53 := by
      apply two_zpow_lt
      calc (2 : ℚ) ^ (((n / d).log2 : Int) + e)
          ≤ (n : ℚ) / d * 2 ^ e := le_quotient positive whole e
        _ ≤ v.high := high
        _ < 2 ^ (v.exponent + 53) := high_lt proper
    omega
  rcases Int.lt_or_eq_of_le atMost with less | same
  · right
    have long : 2 ^ 52 ≤ v.mantissa := proper.full.resolve_right (by omega)
    have upper : (n : ℚ) / d * 2 ^ e < 2 ^ (v.exponent + 52) :=
      lt_of_lt_of_le above (zpow_le_zpow_right₀ one_le_two (by omega))
    have power := power_of_low_lt long (lt_of_le_of_lt low upper)
    have gap : v.gapBelow = 1 := by
      rw [Magnitude.gapBelow, if_pos]
      exact ⟨power, by omega⟩
    have order : v.exponent + 51 < ((n / d).log2 + 1 : ℕ) + e := by
      apply two_zpow_lt
      calc (2 : ℚ) ^ (v.exponent + 51)
          < v.low := lt_low power gap
        _ ≤ (n : ℚ) / d * 2 ^ e := low
        _ < 2 ^ (((n / d).log2 + 1 : ℕ) + e) := above
    exact ⟨by omega, power, gap, upper⟩
  · exact .inl same

/-- In units of the magnitude's own last place a near quotient is rounded to the mantissa. -/
theorem nearestQuotient_of_near (mantissa : 0 < v.mantissa) (positive : 0 < d)
    (near : v.Near ((n : ℚ) / d * 2 ^ v.exponent)) : nearestQuotient n d = v.mantissa := by
  obtain ⟨low, high⟩ := near.bounds
  obtain ⟨some, few⟩ := v.gapBelow_le
  rw [← not_lt, Magnitude.low, lt_quarters _ positive] at low
  rw [← not_lt, Magnitude.high, quarters_lt _ positive] at high
  have least : (4 * v.mantissa - 2) * d ≤ (4 * v.mantissa - v.gapBelow) * d :=
    Nat.mul_le_mul_right d (by omega)
  have split : (4 * v.mantissa - 2) * d + 2 * d = 4 * v.mantissa * d := by
    rw [← Nat.add_mul, Nat.sub_add_cancel (by omega)]
  have split' : (4 * v.mantissa + 2) * d = 4 * v.mantissa * d + 2 * d := Nat.add_mul _ _ _
  have twice : 4 * v.mantissa * d = 2 * (2 * v.mantissa * d) := by ring
  apply nearestQuotient_eq positive
  · omega
  · omega
  · intro odd
    obtain ⟨low', high'⟩ := near.strict odd
    rw [Magnitude.low, quarters_lt _ positive] at low'
    rw [Magnitude.high, lt_quarters _ positive] at high'
    omega

/-- Below a power of two, in units half as large, it is carried to the power. -/
theorem nearestQuotient_of_below (power : v.mantissa = 2 ^ 52) (gap : v.gapBelow = 1) (positive : 0 < d)
    (low : v.low ≤ (n : ℚ) / d * 2 ^ (v.exponent - 1))
    (upper : (n : ℚ) / d * 2 ^ (v.exponent - 1) < 2 ^ (v.exponent + 52)) :
    nearestQuotient n d = 2 ^ 53 := by
  have low_eq : v.low = ((2 * (2 ^ 54 - 1) : ℕ) : ℚ) * 2 ^ (v.exponent - 1 - 2) := by
    rw [Magnitude.low, power, gap, zpow_sub₀ two_ne_zero, zpow_sub₀ two_ne_zero, zpow_sub₀ two_ne_zero]
    norm_num
    ring
  have upper_eq : (2 : ℚ) ^ (v.exponent + 52) = ((2 ^ 55 : ℕ) : ℚ) * 2 ^ (v.exponent - 1 - 2) := by
    rw [two_pow_mul_zpow]
    congr 1
    omega
  rw [low_eq, ← not_lt, lt_quarters _ positive] at low
  rw [upper_eq, lt_quarters _ positive] at upper
  apply nearestQuotient_eq positive
  · omega
  · omega
  · intro odd
    exact absurd odd (by decide)

/-- A quotient next to a magnitude is rounded to it. -/
theorem assemble_near (proper : v.Proper) (positive : 0 < d)
    (target : max (((n / d).log2 : Int) + e - 52) (-1074) = e + k)
    (near : v.Near ((n : ℚ) / d * 2 ^ e)) (sign : Sign) :
    assemble sign (nearestQuotient n (d * 2 ^ k)) (e + k) =
      .finite sign v.mantissa v.exponent proper.positive := by
  have scaled : 0 < d * 2 ^ k := Nat.mul_pos positive (Nat.two_pow_pos k)
  have place := place_of_near proper positive target near
  rw [quotient_scale n d e k] at near place
  rcases place with same | ⟨less, power, gap, upper⟩
  · rw [same] at near ⊢
    rw [nearestQuotient_of_near proper.positive scaled near, assemble,
      dif_neg (Nat.pos_iff_ne_zero.mp proper.positive), if_pos proper.digits]
  · have low := near.bounds.1
    rw [less] at low upper ⊢
    rw [nearestQuotient_of_below power gap scaled low upper, assemble, dif_neg (by decide),
      if_neg (Nat.lt_irrefl _)]
    simp only [power, Int.sub_add_cancel]

end

end Double

end StochasticGrammar

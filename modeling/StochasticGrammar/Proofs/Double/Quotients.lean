import StochasticGrammar.Proofs.Double.Bounds

/-!
Positive doubles between powers of two. Every number of ordinary size is near a double, at most by a
factor of two away from it, so that naturals, sums and quotients of such sizes are doubles of such sizes.
-/

namespace StochasticGrammar

namespace Decimal.Magnitude

variable {v : Magnitude} {q x : ℚ}

theorem value_eq_quarters (v : Magnitude) : v.value = 4 * v.mantissa * 2 ^ (v.exponent - 2) := by
  rw [value, zpow_sub₀ two_ne_zero]
  ring

theorem Near.half (near : v.Near q) (positive : 0 < v.mantissa) : v.value ≤ 2 * q ∧ q ≤ 2 * v.value := by
  obtain ⟨low, high⟩ := near.bounds
  obtain ⟨some, few⟩ := v.gapBelow_le
  have power : (0 : ℚ) < 2 ^ (v.exponent - 2) := zpow_pos two_pos _
  have least : ((2 * v.mantissa : ℕ) : ℚ) ≤ ((4 * v.mantissa - v.gapBelow : ℕ) : ℚ) := by
    exact_mod_cast (by omega)
  have most : ((4 * v.mantissa + 2 : ℕ) : ℚ) ≤ ((8 * v.mantissa : ℕ) : ℚ) := by exact_mod_cast (by omega)
  rw [value_eq_quarters]
  push_cast at least most
  constructor
  · calc 4 * (v.mantissa : ℚ) * 2 ^ (v.exponent - 2)
        = 2 * (2 * v.mantissa * 2 ^ (v.exponent - 2)) := by ring
      _ ≤ 2 * v.low := mul_le_mul_of_nonneg_left (mul_le_mul_of_nonneg_right least power.le) two_pos.le
      _ ≤ 2 * q := mul_le_mul_of_nonneg_left low two_pos.le
  · calc q
        ≤ v.high := high
      _ ≤ 8 * v.mantissa * 2 ^ (v.exponent - 2) := by
        rw [Magnitude.high]
        push_cast
        exact mul_le_mul_of_nonneg_right most power.le
      _ = 2 * (4 * v.mantissa * 2 ^ (v.exponent - 2)) := by ring

/-- A number within half of the last place is near, if it is no more than a quarter below a power of two. -/
theorem near_of_halves (positive : 0 < v.mantissa) (low : 2 * (v.mantissa : ℚ) - 1 ≤ 2 * x)
    (high : 2 * x ≤ 2 * v.mantissa + 1)
    (odd : v.mantissa % 2 = 1 → 2 * (v.mantissa : ℚ) - 1 < 2 * x ∧ 2 * x < 2 * v.mantissa + 1)
    (power : v.mantissa = 2 ^ 52 → -1074 < v.exponent → 4 * (v.mantissa : ℚ) - 1 ≤ 4 * x) :
    v.Near (x * 2 ^ v.exponent) := by
  have quarter : (0 : ℚ) < 2 ^ (v.exponent - 2) := zpow_pos two_pos _
  have scaled : x * 2 ^ v.exponent = 4 * x * 2 ^ (v.exponent - 2) := by
    rw [zpow_sub₀ two_ne_zero]
    ring
  have gap : ((4 * v.mantissa - v.gapBelow : ℕ) : ℚ) = 4 * v.mantissa - v.gapBelow := by
    rw [Nat.cast_sub (by have := v.gapBelow_le; omega)]
    push_cast
    rfl
  rw [Near, Magnitude.low, Magnitude.high, scaled, gap]
  push_cast
  rw [mul_le_mul_iff_left₀ quarter, mul_le_mul_iff_left₀ quarter, mul_lt_mul_iff_left₀ quarter,
    mul_lt_mul_iff_left₀ quarter, gapBelow]
  split
  · refine ⟨?_, by linarith⟩
    split
    · rename_i special
      have short := power special.1 special.2
      push_cast
      exact short
    · push_cast
      linarith
  · rename_i uneven
    have strict := odd (by omega)
    rw [if_neg fun special => uneven (by rw [special.1])]
    push_cast
    exact ⟨by linarith, by linarith⟩

/-- The natural nearest to a number, of two as near the even one. -/
theorem exists_nearest (sign : 0 ≤ x) : ∃ m : ℕ, 2 * (m : ℚ) - 1 ≤ 2 * x ∧ 2 * x ≤ 2 * m + 1 ∧
    (m % 2 = 1 → 2 * (m : ℚ) - 1 < 2 * x ∧ 2 * x < 2 * m + 1) := by
  have low := Nat.floor_le sign
  have high := Nat.lt_floor_add_one x
  generalize ⌊x⌋₊ = n at low high
  rcases lt_trichotomy (2 * x) (2 * n + 1) with below | tie | above
  · exact ⟨n, by linarith, by linarith, fun _ => ⟨by linarith, by linarith⟩⟩
  · by_cases even : n % 2 = 0
    · exact ⟨n, by linarith, by linarith, fun odd => by omega⟩
    · refine ⟨n + 1, ?_, ?_, fun odd => by omega⟩
      · push_cast
        linarith
      · push_cast
        linarith
  · refine ⟨n + 1, ?_, ?_, fun odd => ⟨?_, ?_⟩⟩
    all_goals push_cast; linarith

/-- A number of ordinary size in units of its last place, with all 53 digits before the point unless the
place is the lowest one. -/
theorem exists_scaled (least : (2 : ℚ) ^ (-1074 : Int) ≤ q) (most : q < 2 ^ (1023 : Int)) :
    ∃ (x : ℚ) (e : Int), x * 2 ^ e = q ∧ -1074 ≤ e ∧ e < 971 ∧ 1 ≤ x ∧ x < 2 ^ 53 ∧
      (2 ^ 52 ≤ x ∨ e = -1074) := by
  have positive : 0 < q := lt_of_lt_of_le (zpow_pos two_pos _) least
  have below : (2 : ℚ) ^ Int.log 2 q ≤ q := by exact_mod_cast Int.zpow_log_le_self (by decide) positive
  have above : q < (2 : ℚ) ^ (Int.log 2 q + 1) := by
    exact_mod_cast Int.lt_zpow_succ_log_self (R := ℚ) (b := 2) (by decide) q
  generalize Int.log 2 q = l at below above
  have lower : -1074 < l + 1 := Double.two_zpow_lt (lt_of_le_of_lt least above)
  have upper : l < 1023 := Double.two_zpow_lt (lt_of_le_of_lt below most)
  obtain ⟨e, place⟩ : ∃ e, e = max (l - 52) (-1074) := ⟨_, rfl⟩
  have unit : (0 : ℚ) < 2 ^ e := zpow_pos two_pos e
  have least_power {k : Nat} (digits : (k : Int) + e ≤ l) : 2 ^ k ≤ q / 2 ^ e := by
    rw [le_div_iff₀ unit]
    calc (2 : ℚ) ^ k * 2 ^ e
        = 2 ^ ((k : Int) + e) := by rw [zpow_add₀ two_ne_zero, zpow_natCast]
      _ ≤ 2 ^ l := zpow_le_zpow_right₀ one_le_two digits
      _ ≤ q := below
  refine ⟨q / 2 ^ e, e, div_mul_cancel₀ _ unit.ne', by omega, by omega, ?_, ?_, ?_⟩
  · have whole := least_power (k := 0) (by omega)
    rwa [pow_zero] at whole
  · rw [div_lt_iff₀ unit]
    calc q
        < 2 ^ (l + 1) := above
      _ ≤ 2 ^ (53 + e) := zpow_le_zpow_right₀ one_le_two (by omega)
      _ = 2 ^ 53 * 2 ^ e := zpow_add₀ two_ne_zero _ _
  · rcases Int.lt_or_le (-1074) (l - 52) with normal | low
    · exact .inl (least_power (by omega))
    · exact .inr (by omega)

/-- Every number of ordinary size is near a double. -/
theorem exists_near (least : (2 : ℚ) ^ (-1074 : Int) ≤ q) (most : q < 2 ^ (1023 : Int)) :
    ∃ v : Magnitude, v.Proper ∧ v.Near q := by
  obtain ⟨x, e, rfl, place, high, whole, short, full⟩ := exists_scaled least most
  obtain ⟨m, low, top, odd⟩ := exists_nearest (zero_le_one.trans whole)
  have room : m ≤ 2 ^ 53 := by
    by_contra more
    have more : (2 ^ 53 + 1 : ℚ) ≤ m := by exact_mod_cast (by omega : 2 ^ 53 + 1 ≤ m)
    linarith
  rcases Nat.lt_or_eq_of_le room with digits | carry
  · have positive : 0 < m := by
      by_contra none
      have none : m = 0 := by omega
      subst none
      norm_num at top
      linarith
    have long : 2 ^ 52 ≤ m ∨ e = -1074 := by
      refine full.imp_left fun long => ?_
      by_contra less
      have less : (m : ℚ) + 1 ≤ 2 ^ 52 := by exact_mod_cast (by omega : m + 1 ≤ 2 ^ 52)
      linarith
    refine ⟨⟨m, e⟩, ⟨positive, digits, place, by simp only; omega, long⟩, ?_⟩
    refine near_of_halves (v := ⟨m, e⟩) positive low top odd fun power normal => ?_
    have least := full.resolve_right (by simp only at normal; omega)
    simp only at power
    rw [power]
    push_cast
    linarith
  · -- A mantissa of one more digit is carried to the next power of two.
    subst carry
    have proper : (⟨2 ^ 52, e + 1⟩ : Magnitude).Proper :=
      ⟨Nat.two_pow_pos 52, Nat.pow_lt_pow_right (by decide) (by decide), by simp only; omega, by simp only; omega,
        .inl (Nat.le_refl _)⟩
    refine ⟨_, proper, ?_⟩
    have half : x * 2 ^ e = x / 2 * 2 ^ (e + 1) := by
      rw [zpow_add₀ two_ne_zero]
      ring
    push_cast at low
    rw [half]
    refine near_of_halves (v := ⟨2 ^ 52, e + 1⟩) proper.positive ?_ ?_ (fun odd => ?_) fun _ _ => ?_
    · push_cast
      linarith
    · push_cast
      linarith
    · exact absurd odd (by norm_num)
    · push_cast
      linarith

end Decimal.Magnitude

namespace Double

open Float.Model Float.Model.UnpackedFloat Decimal

variable {x y : Float} {a b c d : Int} {q : ℚ}

/-- A positive double between two powers of two. -/
def Sized (a b : Int) (x : Float) : Prop :=
  ∃ m e positive, number x = .finite .positive m e positive ∧ (2 : ℚ) ^ a ≤ m * 2 ^ e ∧
    (m : ℚ) * 2 ^ e ≤ 2 ^ b

/-- What is rounded once is at most by a factor of two away. -/
theorem sized_of_rounded (least : -1074 ≤ a) (most : b < 1023) (lower : (2 : ℚ) ^ a ≤ q) (upper : q ≤ 2 ^ b)
    (rounds : ∀ {v : Magnitude} (proper : v.Proper), v.Near q →
      number x = .finite .positive v.mantissa v.exponent proper.positive) : Sized (a - 1) (b + 1) x := by
  obtain ⟨v, proper, near⟩ := Magnitude.exists_near ((zpow_le_zpow_right₀ one_le_two least).trans lower)
    (lt_of_le_of_lt upper (zpow_lt_zpow_right₀ one_lt_two most))
  obtain ⟨above, below⟩ := near.half proper.positive
  rw [Magnitude.value] at above below
  refine ⟨_, _, _, rounds proper near, ?_, ?_⟩
  · rw [zpow_sub₀ two_ne_zero, zpow_one]
    linarith
  · rw [zpow_add₀ two_ne_zero, zpow_one]
    linarith

namespace Sized

theorem mono (sized : Sized a b x) (lower : c ≤ a) (upper : b ≤ d) : Sized c d x := by
  obtain ⟨m, e, positive, shape, low, high⟩ := sized
  exact ⟨m, e, positive, shape, (zpow_le_zpow_right₀ one_le_two lower).trans low,
    high.trans (zpow_le_zpow_right₀ one_le_two upper)⟩

theorem unsigned (sized : Sized a b x) : Unsigned x := by
  obtain ⟨m, e, positive, shape, -⟩ := sized
  rw [unsigned_iff, shape]
  exact fun same => by cases same

theorem add (left : Sized a b x) (right : Sized a b y) (least : -1074 ≤ a) (most : b < 1022) :
    Sized (a - 1) (b + 2) (x + y) := by
  obtain ⟨m, e, some, shape, low, high⟩ := left
  obtain ⟨m', e', some', shape', low', high'⟩ := right
  have lower : (2 : ℚ) ^ a ≤ m * 2 ^ e + m' * 2 ^ e' := by
    have positive : (0 : ℚ) < 2 ^ a := zpow_pos two_pos a
    linarith
  have upper : (m : ℚ) * 2 ^ e + m' * 2 ^ e' ≤ 2 ^ (b + 1) := by
    rw [zpow_add₀ two_ne_zero, zpow_one]
    linarith
  have sum : Sized (a - 1) (b + 1 + 1) (x + y) := by
    refine sized_of_rounded least (by omega) lower upper fun proper near => ?_
    have rounded := add_near some some' proper near
    rw [← shape, ← shape'] at rounded
    exact (proper_number proper .positive rounded).trans rounded
  exact sum.mono (Int.le_refl _) (by omega)

/-- Not among the least numbers, the first factor has all its digits. -/
theorem mul (left : Sized a b x) (right : Sized c d y) (normal : -1022 ≤ a) (least : -1074 ≤ a + c)
    (most : b + d < 1023) : Sized (a + c - 1) (b + d + 1) (x * y) := by
  have canonical := canonical_number x
  obtain ⟨m, e, some, shape, low, high⟩ := left
  obtain ⟨m', e', some', shape', low', high'⟩ := right
  have long : 2 ^ 52 ≤ m := by
    rw [shape] at canonical
    rcases canonical.2.2 with long | lowest
    · exact long
    · have scaled : (2 : ℚ) ^ (52 : Int) * 2 ^ (-1074 : Int) ≤ m * 2 ^ (-1074 : Int) := by
        rw [← zpow_add₀ two_ne_zero, ← lowest]
        exact (zpow_le_zpow_right₀ one_le_two (by omega)).trans low
      exact_mod_cast le_of_mul_le_mul_right scaled (zpow_pos two_pos _)
  have lower : (2 : ℚ) ^ (a + c) ≤ m * 2 ^ e * (m' * 2 ^ e') := by
    rw [zpow_add₀ two_ne_zero]
    exact mul_le_mul low low' (zpow_pos two_pos c).le ((zpow_pos two_pos a).le.trans low)
  have upper : (m : ℚ) * 2 ^ e * (m' * 2 ^ e') ≤ 2 ^ (b + d) := by
    rw [zpow_add₀ two_ne_zero]
    exact mul_le_mul high high' ((zpow_pos two_pos c).le.trans low') (zpow_pos two_pos b).le
  refine sized_of_rounded least most lower upper fun proper near => ?_
  have rounded := mul_near some some' proper (Nat.le_trans long (Nat.le_mul_of_pos_right m some')) near
  rw [← shape, ← shape'] at rounded
  exact (proper_number proper .positive rounded).trans rounded

/-- A quotient neither vanishes nor overflows. -/
theorem div (left : Sized a b x) (right : Sized c d y) (least : -1074 ≤ a - d) (most : b - c < 1023) :
    Sized (a - d - 1) (b - c + 1) (x / y) := by
  obtain ⟨m, e, some, shape, low, high⟩ := left
  obtain ⟨m', e', some', shape', low', high'⟩ := right
  have denominator : (0 : ℚ) < m' * 2 ^ e' := lt_of_lt_of_le (zpow_pos two_pos c) low'
  have lower : (2 : ℚ) ^ (a - d) ≤ m * 2 ^ e / (m' * 2 ^ e') := by
    rw [zpow_sub₀ two_ne_zero]
    exact div_le_div₀ ((zpow_pos two_pos a).le.trans low) low denominator high'
  have upper : (m : ℚ) * 2 ^ e / (m' * 2 ^ e') ≤ 2 ^ (b - c) := by
    rw [zpow_sub₀ two_ne_zero]
    exact div_le_div₀ (zpow_pos two_pos b).le high (zpow_pos two_pos c) low'
  refine sized_of_rounded least most lower upper fun proper near => ?_
  have rounded := div_near some some' proper near
  rw [← shape, ← shape'] at rounded
  exact (proper_number proper .positive rounded).trans rounded

end Sized

/-- Words of up to 53 digits are doubles of their size. -/
theorem sized_word {n : Nat} (positive : 0 < n) (short : n < 2 ^ 53) : Sized 0 53 n.toUInt64.toFloat := by
  obtain ⟨m, e, some, shape, -, amount⟩ := stands_toFloat positive short
  refine ⟨m, e, some, shape, ?_, ?_⟩
  · rw [amount, zpow_zero]
    exact_mod_cast positive
  · rw [amount]
    exact_mod_cast short.le

/-- Naturals of up to 64 digits are doubles of about their size. -/
theorem sized_toFloat {n : Nat} (positive : 0 < n) (small : n ≤ 2 ^ 64) : Sized (-1) 65 n.toFloat := by
  have lower : (2 : ℚ) ^ (0 : Int) ≤ n := by
    rw [zpow_zero]
    exact_mod_cast positive
  have upper : (n : ℚ) ≤ 2 ^ (64 : Int) := by exact_mod_cast small
  refine (sized_of_rounded (by decide) (by decide) lower upper fun {v} proper near => ?_).mono (by decide) (by decide)
  have scaled : v.Near (n * 10 ^ (if false = true then -((0 : Nat) : Int) else (0 : Nat))) := by simpa using near
  exact number_ofScientific proper positive (fun _ => by decide) (fun less => by cases less) scaled

end Double

end StochasticGrammar

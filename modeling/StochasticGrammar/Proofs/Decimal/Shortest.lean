import StochasticGrammar.Proofs.Double.Intervals

/-!
The shortest digits of a double lie in its interval, whichever grid they are from and however a tie is
broken.
-/

namespace StochasticGrammar.Decimal

namespace Ratio

def value (q : Ratio) : ℚ := (q.num : ℚ) / q.den

variable {p q : Ratio}

theorem shift_value (q : Ratio) {base : Nat} (some : 0 < base) (power : Int) :
    (q.shift base power).value = q.value * (base : ℚ) ^ power := by
  unfold shift
  by_cases whole : 0 ≤ power
  · have lift : ((power.toNat : Int)) = power := Int.toNat_of_nonneg whole
    rw [if_pos whole, value, value, Nat.pow_eq]
    push_cast
    rw [← zpow_natCast, lift]
    ring
  · have lift : (((-power).toNat : Int)) = -power := Int.toNat_of_nonneg (by omega)
    have base_ne : (base : ℚ) ≠ 0 := by exact_mod_cast Nat.pos_iff_ne_zero.mp some
    rw [if_neg whole, value, value, Nat.pow_eq]
    push_cast
    rw [← zpow_natCast, lift, zpow_neg]
    field_simp

theorem shift_den (positive : 0 < q.den) {base : Nat} (some : 0 < base) (power : Int) :
    0 < (q.shift base power).den := by
  unfold shift
  split
  · exact positive
  · exact Nat.mul_pos positive (Nat.pow_pos some)

theorem le_iff (positive : 0 < p.den) (positive' : 0 < q.den) :
    p.num * q.den ≤ q.num * p.den ↔ p.value ≤ q.value := by
  have left : (0 : ℚ) < p.den := by exact_mod_cast positive
  have right : (0 : ℚ) < q.den := by exact_mod_cast positive'
  rw [value, value, div_le_div_iff₀ left right]
  norm_cast

theorem lt_iff (positive : 0 < p.den) (positive' : 0 < q.den) :
    p.num * q.den < q.num * p.den ↔ p.value < q.value := by
  rw [← not_le, ← not_le, not_iff_not]
  exact le_iff positive' positive

end Ratio

namespace Digits

def value (d : Digits) : ℚ := d.digits * 10 ^ d.exponent

theorem value_eq (n : Nat) (grid : Int) :
    (Ratio.shift ⟨n, 1⟩ 10 grid).value = (⟨n, grid⟩ : Digits).value := by
  rw [Ratio.shift_value _ (by decide), Ratio.value, value]
  norm_num

theorem value_trimZeros (digits : Nat) (exponent : Int) :
    (trimZeros digits exponent).value = (⟨digits, exponent⟩ : Digits).value := by
  fun_induction trimZeros digits exponent with
  | case1 digits exponent h ih =>
    have tenfold : digits = 10 * (digits / 10) := by omega
    rw [ih, value, value, zpow_add_one₀ (by norm_num)]
    conv_rhs => rw [tenfold]
    push_cast
    ring
  | case2 digits exponent h => rfl

end Digits

namespace Magnitude

variable {v : Magnitude} {q : Ratio}

theorem contains_iff (positive : 0 < q.den) : v.contains q = true ↔ v.Near q.value := by
  have low := Ratio.shift_value ⟨4 * v.mantissa - v.gapBelow, 1⟩ Nat.two_pos (v.exponent - 2)
  have high := Ratio.shift_value ⟨4 * v.mantissa + 2, 1⟩ Nat.two_pos (v.exponent - 2)
  have lowDen := Ratio.shift_den (q := ⟨4 * v.mantissa - v.gapBelow, 1⟩) Nat.one_pos Nat.two_pos
    (v.exponent - 2)
  have highDen := Ratio.shift_den (q := ⟨4 * v.mantissa + 2, 1⟩) Nat.one_pos Nat.two_pos
    (v.exponent - 2)
  have ends : (Ratio.shift ⟨4 * v.mantissa - v.gapBelow, 1⟩ 2 (v.exponent - 2)).value = v.low ∧
      (Ratio.shift ⟨4 * v.mantissa + 2, 1⟩ 2 (v.exponent - 2)).value = v.high := by
    rw [low, high]
    simp [Ratio.value, Magnitude.low, Magnitude.high]
  simp only [contains, Near]
  split
  · rw [Bool.and_eq_true, decide_eq_true_eq, decide_eq_true_eq, Ratio.le_iff lowDen positive,
      Ratio.le_iff positive highDen, ends.1, ends.2]
  · rw [Bool.and_eq_true, decide_eq_true_eq, decide_eq_true_eq, Ratio.lt_iff lowDen positive,
      Ratio.lt_iff positive highDen, ends.1, ends.2]

theorem nearer_cases (tie : Tie) (q : Ratio) :
    nearer tie q = q.floor ∨ nearer tie q = q.floor + 1 := by
  simp only [nearer]
  split
  · exact .inl rfl
  · split
    · exact .inr rfl
    · cases tie with
      | up => exact .inr rfl
      | even =>
        simp only
        omega

theorem near_of_fits {n : Nat} {grid : Int} (fits : v.contains (Ratio.shift ⟨n, 1⟩ 10 grid) = true) :
    v.Near (⟨n, grid⟩ : Digits).value := by
  rw [← Digits.value_eq]
  exact (contains_iff (Ratio.shift_den Nat.one_pos (by decide) grid)).mp fits

theorem near_pick {tie : Tie} {grid : Int} {d : Digits} (picked : v.pick tie grid = some d) :
    v.Near d.value := by
  simp only [pick] at picked
  split at picked
  · rename_i below above
    cases picked
    rcases nearer_cases tie (v.ratio.onGrid grid) with same | same
    · rw [same]
      exact near_of_fits below
    · rw [same]
      exact near_of_fits above
  · rename_i below above
    cases picked
    exact near_of_fits below
  · rename_i below above
    cases picked
    exact near_of_fits above
  · cases picked

theorem value_exact (v : Magnitude) : v.exact.value = v.value := by
  unfold exact
  by_cases whole : 0 ≤ v.exponent
  · have lift : ((v.exponent.toNat : Int)) = v.exponent := Int.toNat_of_nonneg whole
    rw [if_pos whole, Digits.value, value, Nat.shiftLeft_eq]
    push_cast
    rw [← zpow_natCast, lift, mul_one]
  · have lift : (((-v.exponent).toNat : Int)) = -v.exponent := Int.toNat_of_nonneg (by omega)
    have ten : (10 : ℚ) ^ v.exponent = 2 ^ v.exponent * 5 ^ v.exponent := by
      rw [← mul_zpow]
      norm_num
    rw [if_neg whole, Digits.value, value, Nat.pow_eq, ten]
    push_cast
    rw [← zpow_natCast, lift, zpow_neg]
    have some : (5 : ℚ) ^ v.exponent ≠ 0 := zpow_ne_zero _ (by norm_num)
    field_simp

/-- The shortest digits are near, so that they read back. -/
theorem near_shortest (positive : 0 < v.mantissa) (tie : Tie) : v.Near (v.shortest tie).value := by
  simp only [shortest]
  split
  · rename_i d found
    obtain ⟨n, -, picked⟩ := List.exists_of_findSome?_eq_some found
    rw [Digits.value_trimZeros]
    exact near_pick picked
  · rw [value_exact]
    exact near_value positive

end Magnitude

end StochasticGrammar.Decimal

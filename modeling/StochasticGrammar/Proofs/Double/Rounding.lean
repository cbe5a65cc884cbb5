import Mathlib
import StochasticGrammar.Weight

/-!
How doubles are rounded. A mantissa that is too long loses its last bits and is rounded to the
nearest, of two as near to the even one; this is a function of the exact value alone, and it is
monotone.
-/

namespace StochasticGrammar.Double

open Float.Model Float.Model.UnpackedFloat

/-- The quotient of `n` by `d`, rounded to the nearest and ties to the even. -/
def nearestQuotient (n d : Nat) : Nat :=
  if 2 * (n % d) < d then n / d
  else if 2 * (n % d) = d then n / d + n / d % 2
  else n / d + 1

/-- The quotient of `m` by `2 ^ k`, rounded to the nearest and ties to the even. -/
def nearest (m k : Nat) : Nat :=
  if 2 * (m % 2 ^ k) < 2 ^ k then m / 2 ^ k
  else if 2 * (m % 2 ^ k) = 2 ^ k then m / 2 ^ k + m / 2 ^ k % 2
  else m / 2 ^ k + 1

theorem nearestQuotient_le (n d : Nat) : nearestQuotient n d ≤ n / d + 1 := by
  unfold nearestQuotient
  split
  · omega
  · split <;> omega

theorem nearest_zero (m : Nat) : nearest m 0 = m := by
  simp [nearest, Nat.mod_one]

theorem div_le_nearest (m k : Nat) : m / 2 ^ k ≤ nearest m k := by
  unfold nearest
  split
  · exact Nat.le_refl _
  · split <;> omega

theorem nearest_le (m k : Nat) : nearest m k ≤ m / 2 ^ k + 1 := nearestQuotient_le m (2 ^ k)

theorem nearest_mono {m n : Nat} (order : m ≤ n) (k : Nat) : nearest m k ≤ nearest n k := by
  have quotients : m / 2 ^ k ≤ n / 2 ^ k := Nat.div_le_div_right order
  rcases Nat.lt_or_eq_of_le quotients with less | same
  · calc nearest m k
        ≤ m / 2 ^ k + 1 := nearest_le m k
      _ ≤ n / 2 ^ k := less
      _ ≤ nearest n k := div_le_nearest n k
  · have left := Nat.div_add_mod m (2 ^ k)
    have right := Nat.div_add_mod n (2 ^ k)
    rw [same] at left
    by_cases down : 2 * (m % 2 ^ k) < 2 ^ k
    · rw [nearest, if_pos down, same]
      exact div_le_nearest n k
    · have up : ¬ 2 * (n % 2 ^ k) < 2 ^ k := by omega
      by_cases tie : 2 * (n % 2 ^ k) = 2 ^ k
      · have tie' : 2 * (m % 2 ^ k) = 2 ^ k := by omega
        have equal : nearest m k = nearest n k := by
          rw [nearest, nearest, if_neg down, if_pos tie', if_neg up, if_pos tie, same]
        exact Nat.le_of_eq equal
      · have top : nearest n k = n / 2 ^ k + 1 := by rw [nearest, if_neg up, if_neg tie]
        rw [top, ← same]
        exact nearest_le m k

/-- More digits on both sides change nothing. -/
theorem nearest_scale (m k j : Nat) : nearest (m * 2 ^ j) (k + j) = nearest m k := by
  have positive : 0 < 2 ^ j := Nat.two_pow_pos j
  have quotient : m * 2 ^ j / 2 ^ (k + j) = m / 2 ^ k := by
    rw [Nat.pow_add, Nat.mul_div_mul_right _ _ positive]
  have remainder : m * 2 ^ j % 2 ^ (k + j) = m % 2 ^ k * 2 ^ j := by
    rw [Nat.pow_add, Nat.mul_mod_mul_right]
  have half : 2 * (m * 2 ^ j % 2 ^ (k + j)) = 2 * (m % 2 ^ k) * 2 ^ j := by
    rw [remainder, Nat.mul_assoc]
  have whole : 2 ^ (k + j) = 2 ^ k * 2 ^ j := Nat.pow_add 2 k j
  unfold nearest
  rw [half, quotient, whole]
  simp only [Nat.mul_lt_mul_right positive, Nat.mul_left_inj (Nat.pos_iff_ne_zero.mp positive)]

theorem log2_scale {m : Nat} (positive : 0 < m) (j : Nat) : (m * 2 ^ j).log2 = m.log2 + j := by
  have some : m ≠ 0 := Nat.pos_iff_ne_zero.mp positive
  have product : m * 2 ^ j ≠ 0 :=
    Nat.pos_iff_ne_zero.mp (Nat.mul_pos positive (Nat.two_pow_pos j))
  apply (Nat.log2_eq_iff product).mpr
  constructor
  · rw [Nat.pow_add]
    exact Nat.mul_le_mul_right _ (Nat.log2_self_le some)
  · rw [Nat.add_right_comm, Nat.pow_add]
    exact Nat.mul_lt_mul_of_pos_right Nat.lt_log2_self (Nat.two_pow_pos j)

theorem nearest_lower {m k p : Nat} (large : 2 ^ (p + k) ≤ m) : 2 ^ p ≤ nearest m k := by
  have quotient : 2 ^ p ≤ m / 2 ^ k := by
    rw [Nat.le_div_iff_mul_le (Nat.two_pow_pos k), ← Nat.pow_add]
    exact large
  exact Nat.le_trans quotient (div_le_nearest m k)

theorem nearest_upper {m k p : Nat} (small : m < 2 ^ (p + k)) : nearest m k ≤ 2 ^ p := by
  have quotient : m / 2 ^ k < 2 ^ p := by
    rw [Nat.div_lt_iff_lt_mul (Nat.two_pow_pos k), ← Nat.pow_add]
    exact small
  exact Nat.le_trans (nearest_le m k) quotient

/-- What the round bit and the sticky bit of a quotient say of its remainder. -/
structure Residue (em : ExtendedMantissa) (n d : Nat) : Prop where
  quotient : em.mantissa = n / d
  round : em.roundBit = true ↔ d ≤ 2 * (n % d)
  sticky : em.stickyBit = true ↔ n % d ≠ 0 ∧ 2 * (n % d) ≠ d

theorem Residue.ofAccuracy (n : Nat) {d : Nat} (positive : 0 < d) :
    Residue (ExtendedMantissa.ofMantissaAndAccuracy (n / d) (accuracyOfFraction (n % d) d)) n d := by
  unfold accuracyOfFraction
  by_cases none : n % d = 0
  · rw [if_pos none]
    refine ⟨rfl, ?_, ?_⟩
    · simp only [ExtendedMantissa.ofMantissaAndAccuracy, none]
      grind
    · simp [ExtendedMantissa.ofMantissaAndAccuracy, none]
  · rw [if_neg none]
    rcases Nat.lt_trichotomy (2 * (n % d)) d with below | tie | above
    · rw [Nat.compare_eq_lt.mpr below]
      refine ⟨rfl, ?_, ?_⟩ <;> simp only [ExtendedMantissa.ofMantissaAndAccuracy] <;> grind
    · rw [Nat.compare_eq_eq.mpr tie]
      refine ⟨rfl, ?_, ?_⟩ <;> simp only [ExtendedMantissa.ofMantissaAndAccuracy] <;> grind
    · rw [Nat.compare_eq_gt.mpr above]
      refine ⟨rfl, ?_, ?_⟩ <;> simp only [ExtendedMantissa.ofMantissaAndAccuracy] <;> grind

theorem Residue.shiftRightOne {em : ExtendedMantissa} {n d : Nat} (residue : Residue em n d)
    (positive : 0 < d) : Residue em.shiftRightOne n (d * 2) := by
  obtain ⟨quotient, round, sticky⟩ := residue
  have below : n % d < d := Nat.mod_lt _ positive
  have remainder : n % (d * 2) = n % d + d * (n / d % 2) := Nat.mod_mul
  have bit : n / d % 2 = 0 ∨ n / d % 2 = 1 := by omega
  constructor
  · simp only [ExtendedMantissa.shiftRightOne, quotient]
    rw [Nat.div_div_eq_div_mul]
  · simp only [ExtendedMantissa.shiftRightOne, quotient, bne_iff_ne]
    rw [remainder]
    rcases bit with even | odd
    · rw [even]
      omega
    · rw [odd]
      omega
  · simp only [ExtendedMantissa.shiftRightOne, Bool.or_eq_true, round, sticky]
    rw [remainder]
    rcases bit with even | odd
    · rw [even]
      omega
    · rw [odd]
      omega

theorem Residue.shiftRight {em : ExtendedMantissa} {n d : Nat} (residue : Residue em n d)
    (positive : 0 < d) (k : Nat) : Residue (em >>> k) n (d * 2 ^ k) := by
  change Residue (k.repeat ExtendedMantissa.shiftRightOne em) n (d * 2 ^ k)
  induction k with
  | zero =>
    rw [Nat.pow_zero, Nat.mul_one]
    exact residue
  | succ k ih =>
    rw [Nat.pow_succ, ← Nat.mul_assoc]
    exact ih.shiftRightOne (Nat.mul_pos positive (Nat.two_pow_pos k))

theorem Residue.rounded {em : ExtendedMantissa} {n d : Nat} (residue : Residue em n d)
    (positive : 0 < d) : em.roundedMantissa = nearestQuotient n d := by
  obtain ⟨quotient, round, sticky⟩ := residue
  obtain ⟨mantissa, roundBit, stickyBit⟩ := em
  simp only at quotient round sticky
  subst quotient
  unfold nearestQuotient
  cases roundBit <;> cases stickyBit <;> simp only [true_iff, false_iff, Bool.false_eq_true] at *
  · have down : 2 * (n % d) < d := by omega
    rw [if_pos down]
    rfl
  · have down : 2 * (n % d) < d := by omega
    rw [if_pos down]
    rfl
  · have up : ¬ 2 * (n % d) < d := by omega
    have tie : 2 * (n % d) = d := by omega
    rw [if_neg up, if_pos tie]
    rfl
  · have up : ¬ 2 * (n % d) < d := by omega
    rw [if_neg up, if_neg sticky.2]
    rfl

/-- A rounded mantissa of at most 53 digits, with its exponent. -/
def assemble (sign : Sign) (n : Nat) (e : Int) : UnpackedFloat :=
  if zero : n = 0 then .zero sign
  else if n < 2 ^ 53 then .finite sign n e (Nat.pos_of_ne_zero zero)
  else .finite sign (2 ^ 52) (e + 1) (by decide)

theorem target_eq (m : Nat) (e : Int) :
    Format.binary64.targetExponent (totalExponent m e) = max (m.log2 + e - 52) (-1074) := by
  simp only [Format.targetExponent, totalExponent, Format.mantissaBits, Format.minExponent]
  omega

theorem shift_of_target_le {m : Nat} {e : Int} (low : m < 2 ^ 53) (bound : -1074 ≤ e) :
    shiftToTargetExponent Format.binary64 m e .exact = (⟨m, false, false⟩, e) := by
  have digits : m.log2 ≤ 52 := by
    by_cases zero : m = 0
    · simp [zero]
    · exact Nat.le_of_lt_succ ((Nat.log2_lt zero).mpr low)
  have still : (max ((m.log2 : Int) + e - 52) (-1074) - e).toNat = 0 := by omega
  simp only [shiftToTargetExponent, target_eq, shiftToExponent, still]
  exact Prod.ext rfl (Int.add_zero e)

theorem shift_of_carry {e : Int} (bound : -1074 ≤ e) :
    shiftToTargetExponent Format.binary64 (2 ^ 53) e .exact = (⟨2 ^ 52, false, false⟩, e + 1) := by
  have digits : Nat.log2 (2 ^ 53) = 53 := by decide
  have once : (max (((53 : Nat) : Int) + e - 52) (-1074) - e).toNat = 1 := by omega
  simp only [shiftToTargetExponent, target_eq, digits, shiftToExponent, once]
  rfl

/-- Rounding in one step: cut to the digits there is room for, and carry if they overflow. -/
theorem roundQuotient_eq (sign : Sign) (n : Nat) {d : Nat} (positive : 0 < d) (e : Int) {k : Nat}
    (shift : (max (((n / d).log2 : Int) + e - 52) (-1074) - e).toNat = k) :
    roundWithAccuracy Format.binary64 sign (n / d) e (accuracyOfFraction (n % d) d) =
      assemble sign (nearestQuotient n (d * 2 ^ k)) (e + k) := by
  have room : n / d < 2 ^ (53 + k) := by
    have digits : (n / d).log2 + 1 ≤ 53 + k := by omega
    exact Nat.lt_of_lt_of_le Nat.lt_log2_self (Nat.pow_le_pow_right (by decide) digits)
  have scaled : 0 < d * 2 ^ k := Nat.mul_pos positive (Nat.two_pow_pos k)
  have fits : nearestQuotient n (d * 2 ^ k) ≤ 2 ^ 53 := by
    have quotient : n / (d * 2 ^ k) < 2 ^ 53 := by
      rw [← Nat.div_div_eq_div_mul, Nat.div_lt_iff_lt_mul (Nat.two_pow_pos k), ← Nat.pow_add]
      exact room
    exact Nat.le_trans (nearestQuotient_le n _) quotient
  have bound : -1074 ≤ e + k := by omega
  have first : shiftToTargetExponent Format.binary64 (n / d) e (accuracyOfFraction (n % d) d) =
      (ExtendedMantissa.ofMantissaAndAccuracy (n / d) (accuracyOfFraction (n % d) d) >>> k, e + k) := by
    simp only [shiftToTargetExponent, target_eq, shiftToExponent, shift]
  have rounded := ((Residue.ofAccuracy n positive).shiftRight positive k).rounded scaled
  unfold roundWithAccuracy assemble
  simp only [first, rounded]
  rcases Nat.lt_or_eq_of_le fits with low | carry
  · simp only [shift_of_target_le low bound, if_pos low]
  · simp only [carry, shift_of_carry bound, Nat.lt_irrefl, if_false]
    rfl

theorem roundWithAccuracy_eq (sign : Sign) (m : Nat) (e : Int) {k : Nat}
    (shift : (max ((m.log2 : Int) + e - 52) (-1074) - e).toNat = k) :
    roundWithAccuracy Format.binary64 sign m e .exact = assemble sign (nearest m k) (e + k) := by
  have whole := roundQuotient_eq sign m Nat.one_pos e (k := k) (by rw [Nat.div_one]; exact shift)
  rw [Nat.div_one, Nat.mod_one, Nat.one_mul] at whole
  exact whole

theorem assemble_pos (sign : Sign) {n : Nat} (e : Int) (positive : 0 < n) :
    ∃ m e' h, assemble sign n e = .finite sign m e' h := by
  unfold assemble
  rw [dif_neg (Nat.pos_iff_ne_zero.mp positive)]
  by_cases low : n < 2 ^ 53
  · exact ⟨n, e, positive, if_pos low⟩
  · exact ⟨2 ^ 52, e + 1, by decide, if_neg low⟩

/-- A mantissa that loses digits keeps 53 of them, or else the exponent is the least. -/
theorem nearest_full {m k : Nat} {e : Int} (positive : 0 < m)
    (shift : max ((m.log2 : Int) + e - 52) (-1074) = e + k) :
    2 ^ 52 ≤ nearest m k ∨ e + k = -1074 := by
  rcases Int.lt_or_le (-1074) ((m.log2 : Int) + e - 52) with long | short
  · left
    have digits : 52 + k ≤ m.log2 := by omega
    exact nearest_lower ((Nat.le_log2 (by omega)).mp digits)
  · right
    omega

theorem nearest_room {m k : Nat} {e : Int}
    (shift : max ((m.log2 : Int) + e - 52) (-1074) = e + k) : nearest m k ≤ 2 ^ 53 := by
  have digits : m.log2 + 1 ≤ 53 + k := by omega
  exact nearest_upper (Nat.lt_of_lt_of_le Nat.lt_log2_self (Nat.pow_le_pow_right (by decide) digits))

end StochasticGrammar.Double

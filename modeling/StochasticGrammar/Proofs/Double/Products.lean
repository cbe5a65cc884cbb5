import StochasticGrammar.Proofs.Double.Sums

/-!
Products of doubles between zero and one. Doubles that are not negative are ordered as multiples of
the least positive one; a product is the rounded product of these multiples, so that multiplication
is monotone and does not lead out of the numbers between zero and one.
-/

namespace StochasticGrammar.Double

open Float.Model Float.Model.UnpackedFloat

def NotNegative : UnpackedFloat → Prop
  | .zero _ => True
  | .finite .positive .. => True
  | _ => False

/-- How many of the least positive double a number amounts to. -/
def units : UnpackedFloat → Nat
  | .finite _ m e _ => m * 2 ^ (e + 1074).toNat
  | _ => 0

/-- The units of a product, from those of the exact product in units of the square. -/
def rounded (exact : Nat) : Nat :=
  nearest exact (max (exact.log2 - 52) 1074) * 2 ^ (max (exact.log2 - 52) 1074 - 1074)

theorem rounded_mono {m n : Nat} (order : m ≤ n) : rounded m ≤ rounded n := by
  have logs : m.log2 ≤ n.log2 := by
    by_cases zero : m = 0
    · simp [zero]
    · exact (Nat.le_log2 (by omega)).mpr (Nat.le_trans (Nat.log2_self_le zero) order)
  unfold rounded
  generalize left : max (m.log2 - 52) 1074 = j
  generalize right : max (n.log2 - 52) 1074 = k
  have shifts : j ≤ k := by omega
  rcases Nat.lt_or_eq_of_le shifts with less | same
  · -- the larger number has more digits, of which it keeps 53
    have some : n ≠ 0 := by
      intro zero
      rw [zero] at right
      have log : Nat.log2 0 = 0 := by decide
      omega
    have below : nearest m j ≤ 2 ^ 53 :=
      nearest_upper (Nat.lt_of_lt_of_le Nat.lt_log2_self (Nat.pow_le_pow_right (by decide) (by omega)))
    have above : 2 ^ 52 ≤ nearest n k := nearest_lower ((Nat.le_log2 some).mp (by omega))
    have digits : 53 + (j - 1074) = 52 + (j - 1074 + 1) := by omega
    calc nearest m j * 2 ^ (j - 1074)
        ≤ 2 ^ 53 * 2 ^ (j - 1074) := Nat.mul_le_mul_right _ below
      _ = 2 ^ 52 * 2 ^ (j - 1074 + 1) := by rw [← Nat.pow_add, ← Nat.pow_add, digits]
      _ ≤ 2 ^ 52 * 2 ^ (k - 1074) :=
        Nat.mul_le_mul_left _ (Nat.pow_le_pow_right (by decide) (by omega))
      _ ≤ nearest n k * 2 ^ (k - 1074) := Nat.mul_le_mul_right _ above
  · rw [same]
    exact Nat.mul_le_mul_right _ (nearest_mono order k)

theorem rounded_zero : rounded 0 = 0 := by
  have none : ∀ k, nearest 0 k = 0 := by
    intro k
    simp [nearest]
  rw [rounded, none, Nat.zero_mul]

theorem rounded_two_pow {j : Nat} (large : 1126 ≤ j) : rounded (2 ^ j) = 2 ^ (j - 1074) := by
  have shift : max (j - 52) 1074 = j - 52 := by omega
  have digits : nearest (2 ^ j) (j - 52) = 2 ^ 52 := by
    have whole : j = 52 + (j - 52) := by omega
    have scaled := nearest_scale (2 ^ 52) 0 (j - 52)
    rw [Nat.zero_add, nearest_zero, ← Nat.pow_add, ← whole] at scaled
    exact scaled
  have power : 52 + (j - 52 - 1074) = j - 1074 := by omega
  rw [rounded, Nat.log2_two_pow, shift, digits, ← Nat.pow_add, power]

/-- The units of one. -/
def unity : Nat := 2 ^ 1074

theorem rounded_unity : rounded (unity * unity) = unity := by
  have large : 1126 ≤ 1074 + 1074 := by decide
  rw [unity, ← Nat.pow_add, rounded_two_pow large, Nat.add_sub_cancel]

theorem units_assemble {n : Nat} {e : Int} (room : n ≤ 2 ^ 53) (bound : -1074 ≤ e) :
    units (assemble .positive n e) = n * 2 ^ (e + 1074).toNat ∧
      NotNegative (assemble .positive n e) := by
  unfold assemble
  by_cases zero : n = 0
  · rw [dif_pos zero, zero]
    exact ⟨(Nat.zero_mul _).symm, trivial⟩
  · rw [dif_neg zero]
    by_cases low : n < 2 ^ 53
    · rw [if_pos low]
      exact ⟨rfl, trivial⟩
    · have carry : n = 2 ^ 53 := by omega
      have power : 52 + (e + 1 + 1074).toNat = 53 + (e + 1074).toNat := by omega
      rw [if_neg low]
      refine ⟨?_, trivial⟩
      simp only [units]
      rw [carry, ← Nat.pow_add, power, Nat.pow_add]

theorem scaled_lt {m m' : Nat} {e e' : Int} (digits : m < 2 ^ 53) (bound : -1074 ≤ e)
    (full : 2 ^ 52 ≤ m' ∨ e' = -1074) (less : e < e') :
    m * 2 ^ (e + 1074).toNat < m' * 2 ^ (e' + 1074).toNat := by
  have large : 2 ^ 52 ≤ m' := by
    rcases full with large | least
    · exact large
    · omega
  have power : 53 + (e + 1074).toNat = 52 + ((e + 1074).toNat + 1) := by omega
  calc m * 2 ^ (e + 1074).toNat
      < 2 ^ 53 * 2 ^ (e + 1074).toNat := Nat.mul_lt_mul_of_pos_right digits (Nat.two_pow_pos _)
    _ = 2 ^ 52 * 2 ^ ((e + 1074).toNat + 1) := by rw [← Nat.pow_add, ← Nat.pow_add, power]
    _ ≤ 2 ^ 52 * 2 ^ (e' + 1074).toNat :=
      Nat.mul_le_mul_left _ (Nat.pow_le_pow_right (by decide) (by omega))
    _ ≤ m' * 2 ^ (e' + 1074).toNat := Nat.mul_le_mul_right _ large

theorem compare_scaled {sign sign' : Sign} {m m' : Nat} {e e' : Int} {positive : 0 < m}
    {positive' : 0 < m'} (canonical : Canonical (.finite sign m e positive))
    (canonical' : Canonical (.finite sign' m' e' positive')) :
    (compare e e').then (compare m m') =
      compare (m * 2 ^ (e + 1074).toNat) (m' * 2 ^ (e' + 1074).toNat) := by
  obtain ⟨digits, bound, full⟩ := canonical
  obtain ⟨digits', bound', full'⟩ := canonical'
  rcases Int.lt_trichotomy e e' with less | same | greater
  · rw [Int.compare_eq_lt.mpr less, Nat.compare_eq_lt.mpr (scaled_lt digits bound full' less)]
    rfl
  · subst same
    have scale : 0 < 2 ^ (e + 1074).toNat := Nat.two_pow_pos _
    rw [Int.compare_eq_eq.mpr rfl]
    rcases Nat.lt_trichotomy m m' with less | same | greater
    · rw [Nat.compare_eq_lt.mpr less, Nat.compare_eq_lt.mpr (Nat.mul_lt_mul_of_pos_right less scale)]
      rfl
    · rw [Nat.compare_eq_eq.mpr same, same, Nat.compare_eq_eq.mpr rfl]
      rfl
    · rw [Nat.compare_eq_gt.mpr greater,
        Nat.compare_eq_gt.mpr (Nat.mul_lt_mul_of_pos_right greater scale)]
      rfl
  · rw [Int.compare_eq_gt.mpr greater, Nat.compare_eq_gt.mpr (scaled_lt digits' bound' full greater)]
    rfl

/-- Numbers that are not negative are ordered as their units. -/
theorem compare_units {f g : UnpackedFloat} (left : NotNegative f) (right : NotNegative g)
    (canonical : Canonical f) (canonical' : Canonical g) :
    f.compare g = some (compare (units f) (units g)) := by
  cases f with
  | infinity sign => exact left.elim
  | notANumber => exact left.elim
  | zero sign =>
    cases g with
    | infinity sign' => exact right.elim
    | notANumber => exact right.elim
    | zero sign' => rfl
    | finite sign' m e positive =>
      cases sign' with
      | negative => exact right.elim
      | positive =>
        have some : 0 < m * 2 ^ (e + 1074).toNat := Nat.mul_pos positive (Nat.two_pow_pos _)
        simp only [UnpackedFloat.compare, units, Nat.compare_eq_lt.mpr some]
  | finite sign m e positive =>
    cases sign with
    | negative => exact left.elim
    | positive =>
      have some : 0 < m * 2 ^ (e + 1074).toNat := Nat.mul_pos positive (Nat.two_pow_pos _)
      cases g with
      | infinity sign' => exact right.elim
      | notANumber => exact right.elim
      | zero sign' => simp only [UnpackedFloat.compare, units, Nat.compare_eq_gt.mpr some]
      | finite sign' m' e' positive' =>
        cases sign' with
        | negative => exact right.elim
        | positive =>
          simp only [UnpackedFloat.compare, units, compare_scaled canonical canonical']

theorem units_mul_finite {m m' : Nat} {e e' : Int} {positive : 0 < m} {positive' : 0 < m'}
    (canonical : Canonical (.finite .positive m e positive))
    (canonical' : Canonical (.finite .positive m' e' positive')) :
    let product := roundWithAccuracy Format.binary64 .positive (m * m') (e + e') .exact
    units product = rounded (m * 2 ^ (e + 1074).toNat * (m' * 2 ^ (e' + 1074).toNat)) ∧
      NotNegative product ∧ Canonical product := by
  obtain ⟨digits, bound, full⟩ := canonical
  obtain ⟨digits', bound', full'⟩ := canonical'
  have some : 0 < m * m' := Nat.mul_pos positive positive'
  -- unless both exponents are least, one factor has all its digits
  have fits : e + e' ≤ max (((m * m').log2 : Int) + (e + e') - 52) (-1074) := by
    by_cases least : e = -1074 ∧ e' = -1074
    · omega
    · have large : 2 ^ 52 ≤ m * m' := by
        rcases full with left | left
        · exact Nat.le_trans left (Nat.le_mul_of_pos_right m positive')
        · rcases full' with right | right
          · exact Nat.le_trans right (Nat.le_mul_of_pos_left m' positive)
          · exact absurd ⟨left, right⟩ least
      have log : 52 ≤ (m * m').log2 := (Nat.le_log2 (by omega)).mpr large
      omega
  obtain ⟨k, shift⟩ := Int.le.dest fits
  have room := nearest_room shift.symm
  have least : -1074 ≤ e + e' + k := by omega
  obtain ⟨amount, sign⟩ := units_assemble room least
  intro product
  have equal : product = assemble .positive (nearest (m * m') k) (e + e' + k) :=
    roundWithAccuracy_eq .positive (m * m') (e + e') (by omega)
  rw [equal]
  refine ⟨?_, sign, canonical_assemble .positive least (nearest_full some shift.symm)⟩
  have exact_eq : m * 2 ^ (e + 1074).toNat * (m' * 2 ^ (e' + 1074).toNat) =
      m * m' * 2 ^ ((e + 1074).toNat + (e' + 1074).toNat) := by
    rw [Nat.pow_add, Nat.mul_mul_mul_comm]
  have digitsLost : max ((m * m').log2 + ((e + 1074).toNat + (e' + 1074).toNat) - 52) 1074 =
      k + ((e + 1074).toNat + (e' + 1074).toNat) := by omega
  have power : k + ((e + 1074).toNat + (e' + 1074).toNat) - 1074 = (e + e' + k + 1074).toNat := by
    omega
  calc units (assemble .positive (nearest (m * m') k) (e + e' + k))
      = nearest (m * m') k * 2 ^ (e + e' + k + 1074).toNat := amount
    _ = rounded (m * m' * 2 ^ ((e + 1074).toNat + (e' + 1074).toNat)) := by
      rw [rounded, log2_scale some, digitsLost, nearest_scale, power]
    _ = rounded (m * 2 ^ (e + 1074).toNat * (m' * 2 ^ (e' + 1074).toNat)) := by rw [exact_eq]

theorem units_mul {f g : UnpackedFloat} (left : NotNegative f) (right : NotNegative g)
    (canonical : Canonical f) (canonical' : Canonical g) :
    units (UnpackedFloat.mul Format.binary64 f g) = rounded (units f * units g) ∧
      NotNegative (UnpackedFloat.mul Format.binary64 f g) ∧
      Canonical (UnpackedFloat.mul Format.binary64 f g) := by
  cases f with
  | infinity sign => exact left.elim
  | notANumber => exact left.elim
  | zero sign =>
    have zero : rounded (0 * units g) = 0 := by rw [Nat.zero_mul, rounded_zero]
    cases g with
    | infinity sign' => exact right.elim
    | notANumber => exact right.elim
    | zero sign' => exact ⟨zero.symm, trivial, trivial⟩
    | finite sign' m e positive => exact ⟨zero.symm, trivial, trivial⟩
  | finite sign m e positive =>
    cases sign with
    | negative => exact left.elim
    | positive =>
      cases g with
      | infinity sign' => exact right.elim
      | notANumber => exact right.elim
      | zero sign' =>
        have zero : rounded (m * 2 ^ (e + 1074).toNat * 0) = 0 := by rw [Nat.mul_zero, rounded_zero]
        exact ⟨zero.symm, trivial, trivial⟩
      | finite sign' m' e' positive' =>
        cases sign' with
        | negative => exact right.elim
        | positive => exact units_mul_finite canonical canonical'

/-- How many of the least positive double a double amounts to. -/
def level (x : Float) : Nat := units (number x)

/-- A double from zero to one. -/
def Fraction (x : Float) : Prop := NotNegative (number x) ∧ level x ≤ unity

theorem canonical_number (x : Float) : Canonical (number x) := (canonical_unpack x.toModel).1

theorem lt_iff_compare {x y : Float} : x < y ↔ (number x).compare (number y) = some .lt := by
  change decide (UnpackedFloat.lt (number x) (number y) = true) = true ↔ _
  rw [decide_eq_true_iff]
  exact beq_iff_eq

theorem lt_iff_level {x y : Float} (left : NotNegative (number x)) (right : NotNegative (number y)) :
    x < y ↔ level x < level y := by
  rw [lt_iff_compare, compare_units left right (canonical_number x) (canonical_number y)]
  rw [Option.some.injEq, Nat.compare_eq_lt]
  rfl

theorem level_zero : level 0.0 = 0 := by
  rw [level, number_zero]
  rfl

theorem level_one : level 1.0 = unity := by
  have power : ((-52 : Int) + 1074).toNat = 1022 := by decide
  rw [level, number_one, units, power, ← Nat.pow_add]
  rfl

theorem pos_iff_level {x : Float} (fraction : Fraction x) : 0.0 < x ↔ 0 < level x := by
  have zero : NotNegative (number 0.0) := by
    rw [number_zero]
    trivial
  rw [lt_iff_level zero fraction.1, level_zero]

theorem overflow_of_units {f : UnpackedFloat} (bounded : units f ≤ unity) : overflow f = f := by
  cases f with
  | infinity sign => rfl
  | notANumber => rfl
  | zero sign => rfl
  | finite sign m e positive =>
    have power : 2 ^ (e + 1074).toNat ≤ 2 ^ 1074 :=
      Nat.le_trans (Nat.le_mul_of_pos_left _ positive) bounded
    have exponent : (e + 1074).toNat ≤ 1074 := (Nat.pow_le_pow_iff_right (by decide)).mp power
    exact if_pos (by omega)

theorem Fraction.mul {x y : Float} (left : Fraction x) (right : Fraction y) :
    Fraction (x * y) ∧ level (x * y) = rounded (level x * level y) := by
  obtain ⟨amount, sign, canonical⟩ :=
    units_mul left.1 right.1 (canonical_number x) (canonical_number y)
  have bounded : rounded (level x * level y) ≤ unity := by
    calc rounded (level x * level y)
        ≤ rounded (unity * unity) := rounded_mono (Nat.mul_le_mul left.2 right.2)
      _ = unity := rounded_unity
  have product : number (x * y) = UnpackedFloat.mul Format.binary64 (number x) (number y) := by
    rw [number_mul, unpack_pack canonical]
    exact overflow_of_units (amount ▸ bounded)
  unfold Fraction level at *
  rw [product, amount]
  exact ⟨⟨sign, bounded⟩, rfl⟩

end StochasticGrammar.Double

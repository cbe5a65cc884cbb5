import StochasticGrammar.Proofs.Decimal.Readings
import StochasticGrammar.Proofs.Decimal.Scanning
import StochasticGrammar.Proofs.Decimal.Shortest
import StochasticGrammar.Proofs.Double.Signs

/-!
The text of a double reads as this double. Its digits are near it, so that they round to it, and what
is written of them amounts to the same number; the sign is written and read apart.
-/

namespace StochasticGrammar.Decimal

open Float.Model Float.Model.UnpackedFloat Double

/-- Powers of ten around a near number, far from the cut-offs. -/
theorem near_range {v : Magnitude} (proper : v.Proper) {q : ℚ} (near : v.Near q) :
    ((10 : ℚ) ^ 330)⁻¹ < q ∧ q < 10 ^ 330 := by
  obtain ⟨low, high⟩ := near.bounds
  have tens : (2 : ℚ) ^ 1089 < 10 ^ 330 := by
    have base : (2 : ℚ) ^ 33 < 10 ^ 10 := by norm_num
    calc (2 : ℚ) ^ 1089
        = ((2 : ℚ) ^ 33) ^ 33 := by rw [← pow_mul]
      _ < ((10 : ℚ) ^ 10) ^ 33 := pow_lt_pow_left₀ base (by norm_num) (by decide)
      _ = 10 ^ 330 := by rw [← pow_mul]
  have gap := v.gapBelow_le
  have positive := proper.positive
  have digits := proper.digits
  constructor
  · calc ((10 : ℚ) ^ 330)⁻¹
        < ((2 : ℚ) ^ 1089)⁻¹ := inv_strictAnti₀ (pow_pos two_pos _) tens
      _ = 2 ^ (-1089 : Int) := by
          rw [zpow_neg]
          rfl
      _ ≤ 2 ^ (v.exponent - 2) := zpow_le_zpow_right₀ one_le_two (by have := proper.least; omega)
      _ = 1 * 2 ^ (v.exponent - 2) := (one_mul _).symm
      _ ≤ v.low := by
          apply mul_le_mul_of_nonneg_right _ (zpow_pos two_pos _).le
          exact_mod_cast (by omega : 1 ≤ 4 * v.mantissa - v.gapBelow)
      _ ≤ q := low
  · calc q
        ≤ v.high := high
      _ ≤ 2 ^ (56 : Int) * 2 ^ (v.exponent - 2) := by
          apply mul_le_mul_of_nonneg_right _ (zpow_pos two_pos _).le
          exact_mod_cast (by omega : 4 * v.mantissa + 2 ≤ 2 ^ 56)
      _ = 2 ^ (56 + (v.exponent - 2)) := (zpow_add₀ two_ne_zero _ _).symm
      _ ≤ 2 ^ (1089 : Int) := zpow_le_zpow_right₀ one_le_two (by have := proper.most; omega)
      _ < 10 ^ 330 := tens

/-- The number of decimal digits places a number between powers of ten. -/
theorem toDigits_bounds {m : Nat} (some : m ≠ 0) : ∃ length, (Nat.toDigits 10 m).length = length + 1 ∧
    10 ^ length ≤ m ∧ m < 10 ^ (length + 1) := by
  obtain ⟨length, size⟩ : ∃ length, (Nat.toDigits 10 m).length = length + 1 :=
    Nat.exists_eq_succ_of_ne_zero (Nat.pos_iff_ne_zero.mp Nat.length_toDigits_pos)
  refine ⟨length, size, ?_, (Nat.length_toDigits_le_iff (by decide) (Nat.succ_pos _)).mp size.le⟩
  rcases Nat.eq_zero_or_pos length with rfl | positive
  · exact Nat.pos_iff_ne_zero.mpr some
  · exact Nat.le_of_not_lt fun less =>
      absurd ((Nat.length_toDigits_le_iff (by decide) positive).mpr less) (by omega)

/-- A decimal number near a double reads as that double. -/
theorem number_nearest {v : Magnitude} (proper : v.Proper) {m : Nat} {k : Int} (whole : k ≤ 0)
    (near : v.Near (m * 10 ^ k)) :
    number (nearest m k) = .finite .positive v.mantissa v.exponent proper.positive := by
  obtain ⟨low, high⟩ := near_range proper near
  have some : m ≠ 0 := by
    rintro rfl
    rw [Nat.cast_zero, MulZeroClass.zero_mul] at low
    exact absurd low (not_lt.mpr (inv_nonneg.mpr (pow_pos (by norm_num) _).le))
  have ten : (1 : ℚ) < 10 := by norm_num
  have power : (0 : ℚ) < 10 ^ k := zpow_pos (by norm_num) k
  have scale (j : Nat) : (10 : ℚ) ^ (j + k) = ((10 ^ j : ℕ) : ℚ) * 10 ^ k := by
    rw [zpow_add₀ (by norm_num), zpow_natCast]
    push_cast
    rfl
  obtain ⟨length, size, below, above⟩ := toDigits_bounds some
  have top : -330 < ((length + 1 : ℕ) : Int) + k := by
    apply (zpow_lt_zpow_iff_right₀ ten).mp
    calc (10 : ℚ) ^ (-330 : Int)
        = ((10 : ℚ) ^ 330)⁻¹ := by
          rw [zpow_neg]
          rfl
      _ < m * 10 ^ k := low
      _ < ((10 ^ (length + 1) : ℕ) : ℚ) * 10 ^ k :=
          mul_lt_mul_of_pos_right (by exact_mod_cast above) power
      _ = 10 ^ (((length + 1 : ℕ) : Int) + k) := (scale _).symm
  have bottom : (length : Int) + k < 330 := by
    apply (zpow_lt_zpow_iff_right₀ ten).mp
    calc (10 : ℚ) ^ ((length : Int) + k)
        = ((10 ^ length : ℕ) : ℚ) * 10 ^ k := scale _
      _ ≤ m * 10 ^ k := mul_le_mul_of_nonneg_right (by exact_mod_cast below) power.le
      _ < 10 ^ (330 : Int) := high
  have short : length ≤ m.log2 := by
    rw [Nat.le_log2 some]
    exact Nat.le_trans (Nat.pow_le_pow_left (by decide) length) below
  unfold nearest
  simp only [size]
  rw [if_neg (by push_cast; omega), if_neg (by push_cast; omega)]
  apply number_ofScientific proper (Nat.pos_iff_ne_zero.mpr some)
  · intro none
    have zero : k = 0 := by
      have := of_decide_eq_false none
      omega
    simp [zero]
  · intro part
    omega
  · have shape : (if (decide (k < 0)) = true then -(k.natAbs : Int) else k.natAbs) = k := by
      by_cases part : k < 0
      · rw [decide_eq_true part, if_pos rfl]
        omega
      · rw [decide_eq_false part, if_neg Bool.false_ne_true]
        omega
    rwa [shape]

/-- Decimal numbers without a sign are read as numbers without one. -/
theorem unmarked_nearest (m : Nat) (k : Int) : Unmarked (number (nearest m k)) := by
  unfold nearest
  simp only
  split
  · rfl
  · rename_i some
    split
    · rfl
    · exact unmarked_scientific (Nat.pos_of_ne_zero fun zero => some (.inl zero)) _ _

theorem number_neg (x : Float) : number (-x) = (pack (UnpackedFloat.neg (number x))).unpack := rfl

theorem finite_cases {x : Float} (finite : x.isFinite = true) :
    (∃ sign, number x = .zero sign) ∨
      ∃ sign, ∃ v : Magnitude, ∃ proper : v.Proper,
        number x = .finite sign v.mantissa v.exponent proper.positive := by
  have finite : (number x).isFinite = true := finite
  obtain ⟨canonical, bounded⟩ := canonical_unpack x.toModel
  change Canonical (number x) at canonical
  change overflow (number x) = number x at bounded
  cases shape : number x with
  | infinity sign => simp [shape, UnpackedFloat.isFinite] at finite
  | notANumber => simp [shape, UnpackedFloat.isFinite] at finite
  | zero sign => exact .inl ⟨sign, rfl⟩
  | finite sign m e positive =>
    rw [shape] at canonical bounded
    obtain ⟨digits, least, full⟩ := canonical
    have most : e ≤ 971 := by
      rw [overflow] at bounded
      split at bounded
      · assumption
      · cases bounded
    exact .inr ⟨sign, ⟨m, e⟩, ⟨positive, digits, least, most, full⟩, rfl⟩

/-- The digits that are written for a magnitude. -/
def Magnitude.written (v : Magnitude) : List Char :=
  let d := if v.mantissa = 0 then ⟨0, 0⟩ else v.shortest .up
  Layout.plain.positionalText (Nat.toDigits 10 d.digits) d.exponent

theorem text_toList {x : Float} {negative : Bool} {v : Magnitude}
    (reading : Reading.ofFloat x = .finite negative v) :
    (text x).toList = if negative then '-' :: v.written else v.written := by
  rw [text, Layout.write, reading]
  exact String.toList_ofList

theorem scan_signed {written rest : List Char} {x y : Float} {negative : Bool}
    (digit : ∃ c tail, written = c :: tail ∧ c.isDigit = true)
    (scanned : scan (written ++ rest) = .number y rest) (value : x = if negative then -y else y) :
    scan ((if negative then '-' :: written else written) ++ rest) = .number x rest := by
  obtain ⟨c, tail, rfl, digit⟩ := digit
  subst value
  cases negative with
  | false => exact scanned
  | true => exact scan_negative digit scanned

theorem written_digit (v : Magnitude) : ∃ c tail, v.written = c :: tail ∧ c.isDigit = true :=
  (scan_positional _ _ separated_nil).1

/-- The text of a finite double reads as this double. -/
theorem scan_text {x : Float} (finite : x.isFinite = true) {rest : List Char}
    (separated : Separated rest) : scan ((text x).toList ++ rest) = .number x rest := by
  rcases finite_cases finite with ⟨sign, zero⟩ | ⟨sign, v, proper, shape⟩
  · have reading : Reading.ofFloat x = .finite (isNegative sign) ⟨0, -1074⟩ := by
      rw [ofFloat_eq, zero]
      rfl
    have scanned := (scan_positional 0 0 separated).2
    have none : nearest (0 * 10 ^ (0 : Int).toNat) (min 0 0) = 0.0 := rfl
    rw [none] at scanned
    rw [text_toList reading]
    apply scan_signed (written_digit _) scanned
    apply number_inj
    rw [zero]
    cases sign <;> rfl
  · have some : v.mantissa ≠ 0 := Nat.pos_iff_ne_zero.mp proper.positive
    have reading : Reading.ofFloat x = .finite (isNegative sign) v := by
      rw [ofFloat_eq, shape]
      rfl
    have near := v.near_shortest proper.positive .up
    have digits : v.written = Layout.plain.positionalText
        (Nat.toDigits 10 (v.shortest .up).digits) (v.shortest .up).exponent := by
      rw [Magnitude.written, if_neg some]
    have scanned := (scan_positional (v.shortest .up).digits (v.shortest .up).exponent separated).2
    rw [← digits] at scanned
    have value : (v.shortest .up).value =
        (((v.shortest .up).digits * 10 ^ (v.shortest .up).exponent.toNat : ℕ) : ℚ) *
          10 ^ (min (v.shortest .up).exponent 0) := by
      generalize v.shortest .up = d
      rw [Digits.value]
      push_cast
      rw [mul_assoc, ← zpow_natCast, ← zpow_add₀ (by norm_num)]
      congr 2
      omega
    rw [value] at near
    have read := number_nearest proper (min_le_right _ _) near
    rw [text_toList reading]
    apply scan_signed (written_digit v) scanned
    apply number_inj
    rw [shape]
    cases sign with
    | positive => exact read.symm
    | negative =>
      rw [isNegative, if_pos rfl, number_neg, read]
      exact (proper_number proper .negative rfl).symm

theorem written_chars (v : Magnitude) : ∀ c ∈ v.written, c.isDigit = true ∨ c = '.' :=
  positional_chars (isDigit_toDigits _) _

theorem text_written {x : Float} (finite : x.isFinite = true) :
    ∃ negative v, (text x).toList = (if negative then '-' :: Magnitude.written v else v.written) ∧
      (Unmarked (number x) → negative = false) := by
  rcases finite_cases finite with ⟨sign, shape⟩ | ⟨sign, v, proper, shape⟩
  · refine ⟨isNegative sign, ⟨0, -1074⟩, text_toList ?_, ?_⟩
    · rw [ofFloat_eq, shape]
      rfl
    · intro unmarked
      rw [shape] at unmarked
      cases unmarked
      rfl
  · refine ⟨isNegative sign, v, text_toList ?_, ?_⟩
    · rw [ofFloat_eq, shape]
      rfl
    · intro unmarked
      rw [shape] at unmarked
      cases unmarked
      rfl

theorem text_chars {x : Float} (finite : x.isFinite = true) :
    ∀ c ∈ (text x).toList, c.isDigit = true ∨ c = '.' ∨ c = '-' := by
  obtain ⟨negative, v, written, -⟩ := text_written finite
  rw [written]
  intro c inside
  split at inside
  · rcases List.mem_cons.mp inside with minus | rest
    · exact .inr (.inr minus)
    · exact (written_chars v c rest).imp_right .inl
  · exact (written_chars v c inside).imp_right .inl

theorem text_head {x : Float} (finite : x.isFinite = true) (unmarked : Unmarked (number x)) :
    ∃ c tail, (text x).toList = c :: tail ∧ c.isDigit = true := by
  obtain ⟨negative, v, written, sign⟩ := text_written finite
  rw [written, sign unmarked]
  exact written_digit v

end StochasticGrammar.Decimal

import StochasticGrammar.Proofs.Double.Decimals

/-!
Signs of doubles. Decimal numbers are made by rounding positive numbers, so that they are defined and
no minus sign belongs to them, infinity included.
-/

namespace StochasticGrammar.Double

open Float.Model Float.Model.UnpackedFloat

/-- A number to which no minus sign belongs. -/
def Unmarked : UnpackedFloat → Prop
  | .zero sign => sign = .positive
  | .infinity sign => sign = .positive
  | .finite sign .. => sign = .positive
  | .notANumber => False

theorem isFinite_of_isInf {x : Float} (defined : number x ≠ .notANumber) (bounded : x.isInf = false) :
    x.isFinite = true := by
  have bounded : (number x).isInf = false := bounded
  change (number x).isFinite = true
  cases shape : number x with
  | zero sign => rfl
  | finite sign m e positive => rfl
  | infinity sign => simp [shape, UnpackedFloat.isInf] at bounded
  | notANumber => exact absurd shape defined

namespace Unmarked

variable {x : Float}

theorem isFinite (unmarked : Unmarked (number x)) (bounded : x.isInf = false) : x.isFinite = true := by
  apply isFinite_of_isInf _ bounded
  intro nan
  rw [nan] at unmarked
  exact unmarked

theorem unsigned (unmarked : Unmarked (number x)) : Unsigned x := by
  rw [unsigned_iff]
  intro negative
  rw [negative] at unmarked
  cases unmarked

end Unmarked

theorem unmarked_fields {exponent : BitVec 11} (notAll : exponent ≠ -1#11) (mantissa : BitVec 52) :
    Unmarked (ofFields .positive exponent mantissa) := by
  unfold ofFields
  rw [if_neg notAll]
  split
  · split <;> trivial
  · trivial

/-- What is packed without regard to its digits is a double all the same, of the same sign. -/
theorem unpack_pack_cases (sign : Sign) {m : Nat} (e : Int) (positive : 0 < m) :
    (pack (.finite sign m e positive)).unpack = .infinity sign ∨ ∃ exponent mantissa, exponent ≠ -1#11 ∧
      (pack (.finite sign m e positive)).unpack = ofFields sign exponent mantissa := by
  change UnpackedFloat.unpack Format.binary64 (UnpackedFloat.pack Format.binary64 _) = _ ∨ ∃ exponent mantissa, _ ∧
    UnpackedFloat.unpack Format.binary64 (UnpackedFloat.pack Format.binary64 _) = _
  rw [pack_finite]
  split
  · left
    cases sign <;> rfl
  · rename_i below
    right
    rw [← apply_ite (packComponents Format.binary64 sign · _), unpack_packComponents]
    refine ⟨_, _, ?_, rfl⟩
    split
    · intro same
      have exponent : (BitVec.ofNat 11 (e + 1075).toNat).toNat = 2047 := by
        rw [same]
        rfl
      rw [BitVec.toNat_ofNat, Nat.mod_eq_of_lt (by omega)] at exponent
      omega
    · decide

theorem unmarked_pack {f : UnpackedFloat} (unmarked : Unmarked f) : Unmarked (pack f).unpack := by
  cases f with
  | zero sign =>
    cases unmarked
    trivial
  | infinity sign =>
    cases unmarked
    trivial
  | notANumber => exact unmarked.elim
  | finite sign m e positive =>
    cases unmarked
    rcases unpack_pack_cases .positive e positive with infinite | ⟨exponent, mantissa, notAll, fields⟩
    · rw [infinite]
      trivial
    · rw [fields]
      exact unmarked_fields notAll mantissa

/-- A number is packed as a number. -/
theorem defined_pack {f : UnpackedFloat} (defined : f ≠ .notANumber) : (pack f).unpack ≠ .notANumber := by
  cases f with
  | zero sign => cases sign <;> exact fun same => by cases same
  | infinity sign => cases sign <;> exact fun same => by cases same
  | notANumber => exact absurd rfl defined
  | finite sign m e positive =>
    rcases unpack_pack_cases sign e positive with infinite | ⟨exponent, mantissa, notAll, fields⟩
    · rw [infinite]
      exact fun same => by cases same
    · rw [fields, ofFields, if_neg notAll]
      split
      · split <;> exact fun same => by cases same
      · exact fun same => by cases same

theorem unmarked_round (m : Nat) (e : Int) (accuracy : Accuracy) :
    Unmarked (roundWithAccuracy Format.binary64 .positive m e accuracy) := by
  unfold roundWithAccuracy
  simp only
  split <;> trivial

theorem unmarked_mul {m m' : Nat} (positive : 0 < m) (positive' : 0 < m') (e e' : Int) :
    Unmarked (UnpackedFloat.mul Format.binary64 (.finite .positive m e positive)
      (.finite .positive m' e' positive')) :=
  unmarked_round _ _ _

theorem unmarked_div {m m' : Nat} (positive : 0 < m) (positive' : 0 < m') (e e' : Int) :
    Unmarked (UnpackedFloat.div Format.binary64 (.finite .positive m e positive)
      (.finite .positive m' e' positive')) :=
  unmarked_round _ _ _

theorem unmarked_ofScientific (m : Nat) (e : Int) :
    Unmarked (UnpackedFloat.ofScientific Format.binary64 m e) := by
  unfold UnpackedFloat.ofScientific
  split
  · trivial
  · split
    · trivial
    · split
      · trivial
      · split
        · exact unmarked_mul _ _ _ _
        · exact unmarked_div _ _ _ _

theorem unmarked_scientific {m : Nat} (positive : 0 < m) (small : Bool) (k : Nat) :
    Unmarked (number (Float.ofScientific m small k)) := by
  unfold Float.ofScientific
  split
  · rename_i fast
    obtain ⟨a, e, some, left, -⟩ := stands_toFloat positive fast.1
    obtain ⟨b, e', some', right, -⟩ :=
      stands_power (isPower_table ⟨k, Nat.lt_succ_of_le fast.2⟩)
    split
    · have quotient := unmarked_div some some' e e'
      rw [← left, ← right] at quotient
      exact unmarked_pack quotient
    · have product := unmarked_mul some some' e e'
      rw [← left, ← right] at product
      exact unmarked_pack product
  · exact unmarked_pack (unmarked_ofScientific m _)

end StochasticGrammar.Double

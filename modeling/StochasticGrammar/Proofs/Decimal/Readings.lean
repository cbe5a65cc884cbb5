import StochasticGrammar.Decimal.Magnitude
import StochasticGrammar.Proofs.Double.Sums

/-!
The bits of a double taken apart. What is read of the bits is the number that they stand for.
-/

namespace StochasticGrammar.Decimal

open Float.Model Float.Model.UnpackedFloat Double

def isNegative : Sign → Bool
  | .positive => false
  | .negative => true

/-- The reading of an unpacked number. -/
def Reading.of : UnpackedFloat → Reading
  | .notANumber => .nan
  | .infinity sign => .infinite (isNegative sign)
  | .zero sign => .finite (isNegative sign) ⟨0, -1074⟩
  | .finite sign m e _ => .finite (isNegative sign) ⟨m, e⟩

theorem toNat_packComponents (sign : Sign) (exponent : BitVec 11) (mantissa : BitVec 52) :
    (packComponents Format.binary64 sign exponent mantissa).toNat =
      (sign.toBitVec.toNat * 2 ^ 11 + exponent.toNat) * 2 ^ 52 + mantissa.toNat := by
  change (sign.toBitVec ++ exponent ++ mantissa).toNat = _
  rw [BitVec.toNat_append, ← Nat.shiftLeft_add_eq_or_of_lt mantissa.isLt, BitVec.toNat_append,
    ← Nat.shiftLeft_add_eq_or_of_lt exponent.isLt, Nat.shiftLeft_eq, Nat.shiftLeft_eq]

section

variable {bits : UInt64} {sign : Sign} {exponent : BitVec 11} {mantissa : BitVec 52}

/-- Shifts and masks give the three fields. -/
theorem fields_of_bits (fields : bits.toBitVec = packComponents Format.binary64 sign exponent mantissa) :
    ((bits >>> 52) &&& 0x7ff).toNat = exponent.toNat ∧
      (bits &&& 0xfffffffffffff).toNat = mantissa.toNat ∧ (bits >>> 63 == 1) = isNegative sign := by
  have word : bits.toNat = (sign.toBitVec.toNat * 2 ^ 11 + exponent.toNat) * 2 ^ 52 + mantissa.toNat := by
    rw [← toNat_packComponents, ← fields]
    rfl
  have range := exponent.isLt
  have digits := mantissa.isLt
  have bit := sign.toBitVec.isLt
  refine ⟨?_, ?_, ?_⟩
  · have mask : (0x7ff : UInt64).toNat = 2 ^ 11 - 1 := rfl
    have shift : (bits >>> 52).toNat = bits.toNat / 2 ^ 52 := by
      rw [UInt64.toNat_shiftRight, Nat.shiftRight_eq_div_pow]
      rfl
    rw [UInt64.toNat_and, mask, Nat.and_two_pow_sub_one_eq_mod, shift, word]
    omega
  · have mask : (0xfffffffffffff : UInt64).toNat = 2 ^ 52 - 1 := rfl
    rw [UInt64.toNat_and, mask, Nat.and_two_pow_sub_one_eq_mod, word]
    omega
  · have shift : (bits >>> 63).toNat = sign.toBitVec.toNat := by
      rw [UInt64.toNat_shiftRight, Nat.shiftRight_eq_div_pow]
      change bits.toNat / 2 ^ 63 = _
      rw [word]
      omega
    rw [Bool.eq_iff_iff, beq_iff_eq, ← UInt64.toNat_inj, shift]
    cases sign <;> decide

theorem ofBits_eq (fields : bits.toBitVec = packComponents Format.binary64 sign exponent mantissa) :
    Reading.ofBits bits = Reading.of (ofFields sign exponent mantissa) := by
  obtain ⟨exponent_eq, mantissa_eq, sign_eq⟩ := fields_of_bits fields
  have all : exponent.toNat = 0x7ff ↔ exponent = -1#11 := (BitVec.toNat_eq : exponent = -1#11 ↔ _).symm
  have none : exponent.toNat = 0 ↔ exponent = 0#11 := (BitVec.toNat_eq : exponent = 0#11 ↔ _).symm
  have empty : mantissa.toNat = 0 ↔ mantissa = 0#52 := (BitVec.toNat_eq : mantissa = 0#52 ↔ _).symm
  simp only [Reading.ofBits, exponent_eq, mantissa_eq, sign_eq, all, none, empty, ofFields]
  split
  · split <;> rfl
  · split
    · split
      · rename_i zero
        rw [zero]
        rfl
      · rfl
    · rfl

end

theorem ofFloat_eq (x : Float) : Reading.ofFloat x = Reading.of (number x) := by
  obtain ⟨sign, exponent, mantissa, fields⟩ := exists_packComponents x.toModel.toBits.toBitVec
  have same : number x = ofFields sign exponent mantissa := by
    unfold number Float.Model.unpack
    rw [fields]
    exact unpack_packComponents sign exponent mantissa
  rw [same]
  exact ofBits_eq fields

end StochasticGrammar.Decimal

import Mathlib
import StochasticGrammar.Weight

/-!
The bits of a double and the number that they stand for. Each double stands for an unpacked number
with at most 53 digits, from which packing makes the same bits again.
-/

namespace StochasticGrammar.Double

open Float.Model Float.Model.UnpackedFloat

/-- What the three fields of a double stand for. -/
def ofFields (sign : Sign) (exponent : BitVec 11) (mantissa : BitVec 52) : UnpackedFloat :=
  if exponent = -1#11 then
    if mantissa = 0#52 then .infinity sign else .notANumber
  else if exponent = 0#11 then
    if zero : mantissa = 0#52 then .zero sign
    else .finite sign mantissa.toNat (-1074) (by simpa [BitVec.toNat_pos, BitVec.pos_iff_ne_zero])
  else .finite sign (2 ^ 52 + mantissa.toNat) (exponent.toNat - 1075) (by omega)

theorem sign_ofBitVec_toBitVec (sign : Sign) : Sign.ofBitVec sign.toBitVec = sign := by
  cases sign <;> rfl

theorem sign_toBitVec_ofBitVec (bit : BitVec 1) : (Sign.ofBitVec bit).toBitVec = bit := by
  revert bit
  decide

theorem unpackSign_packComponents (sign : Sign) (exponent : BitVec 11) (mantissa : BitVec 52) :
    unpackSign (packComponents Format.binary64 sign exponent mantissa) = sign.toBitVec := by
  change (sign.toBitVec ++ exponent ++ mantissa).extractLsb' 63 1 = sign.toBitVec
  apply BitVec.eq_of_getLsbD_eq
  intro i inside
  have first : i = 0 := by omega
  subst first
  simp only [BitVec.getLsbD_extractLsb', BitVec.getLsbD_append]
  simp

theorem unpack_packComponents (sign : Sign) (exponent : BitVec 11) (mantissa : BitVec 52) :
    UnpackedFloat.unpack Format.binary64 (packComponents Format.binary64 sign exponent mantissa) =
      ofFields sign exponent mantissa := by
  have leading : (1#1 ++ mantissa).toNat = 2 ^ 52 + mantissa.toNat := by
    rw [BitVec.toNat_append, ← Nat.shiftLeft_add_eq_or_of_lt mantissa.isLt]
    rfl
  unfold UnpackedFloat.unpack ofFields
  simp only [unpackMantissa_packComponents, unpackExponent_packComponents,
    unpackSign_packComponents, sign_ofBitVec_toBitVec, leading]
  by_cases all : exponent = -1#11
  · rw [if_pos all, if_pos all]
  · rw [if_neg all, if_neg all]
    by_cases none : exponent = 0#11
    · subst none
      rfl
    · rw [if_neg none, if_neg none]
      rfl

/-- All bits are those of three fields. -/
theorem exists_packComponents (bits : BitVec 64) :
    ∃ sign exponent mantissa, bits = packComponents Format.binary64 sign exponent mantissa := by
  refine ⟨Sign.ofBitVec (bits.extractLsb' 63 1), bits.extractLsb' 52 11, bits.extractLsb' 0 52, ?_⟩
  unfold packComponents
  rw [sign_toBitVec_ofBitVec]
  apply BitVec.eq_of_getLsbD_eq
  intro i inside
  simp only [BitVec.getLsbD_append, BitVec.getLsbD_extractLsb']
  grind

/-- The finite numbers of at most 53 digits, and of all 53 unless the exponent is the least one. -/
def Canonical : UnpackedFloat → Prop
  | .finite _ m e _ => m < 2 ^ 53 ∧ -1074 ≤ e ∧ (2 ^ 52 ≤ m ∨ e = -1074)
  | _ => True

/-- Numbers that are too large for a double become infinite. -/
def overflow : UnpackedFloat → UnpackedFloat
  | .finite sign m e positive => if e ≤ 971 then .finite sign m e positive else .infinity sign
  | f => f

theorem pack_finite (sign : Sign) (m : Nat) (e : Int) (positive : 0 < m) :
    UnpackedFloat.pack Format.binary64 (.finite sign m e positive) =
      if 2 ^ 11 ≤ (e + 1075).toNat + 1 then packedInfinity Format.binary64 sign
      else if m.log2 + 1 = 53 then
        packComponents Format.binary64 sign (BitVec.ofNat 11 (e + 1075).toNat) (BitVec.ofNat 52 m)
      else packComponents Format.binary64 sign 0#11 (BitVec.ofNat 52 m) := by
  have bias : (e + Format.binary64.exponentBias + Format.binary64.mantissaBitsWithoutImplicit).toNat =
      (e + 1075).toNat := by
    change (e + 1023 + 52).toNat = (e + 1075).toNat
    omega
  rw [← bias]
  rfl

theorem unpack_pack_finite {sign : Sign} {m : Nat} {e : Int} {positive : 0 < m}
    (canonical : Canonical (.finite sign m e positive)) :
    UnpackedFloat.unpack Format.binary64 (UnpackedFloat.pack Format.binary64 (.finite sign m e positive)) =
      overflow (.finite sign m e positive) := by
  obtain ⟨digits, least, full⟩ := canonical
  rw [pack_finite, overflow]
  by_cases large : e ≤ 971
  · have below : ¬ 2 ^ 11 ≤ (e + 1075).toNat + 1 := by omega
    rw [if_neg below, if_pos large]
    by_cases normal : 2 ^ 52 ≤ m
    · have log : m.log2 = 52 := (Nat.log2_eq_iff (by omega)).mpr ⟨normal, digits⟩
      have exponent : (BitVec.ofNat 11 (e + 1075).toNat).toNat = (e + 1075).toNat := by
        rw [BitVec.toNat_ofNat, Nat.mod_eq_of_lt (by omega)]
      have mantissa : 2 ^ 52 + (BitVec.ofNat 52 m).toNat = m := by
        rw [BitVec.toNat_ofNat]
        omega
      have some : BitVec.ofNat 11 (e + 1075).toNat ≠ 0#11 := by
        intro same
        rw [same] at exponent
        have zero : (0#11).toNat = 0 := rfl
        omega
      have notAll : BitVec.ofNat 11 (e + 1075).toNat ≠ -1#11 := by
        intro same
        rw [same] at exponent
        have all : (-1#11).toNat = 2047 := rfl
        omega
      have back : ((e + 1075).toNat : Int) - 1075 = e := by omega
      rw [log, if_pos rfl, unpack_packComponents]
      simp only [ofFields, if_neg notAll, if_neg some, exponent, mantissa, back]
    · have small : m < 2 ^ 52 := by omega
      have lowest : e = -1074 := by omega
      have log : m.log2 < 52 := (Nat.log2_lt (by omega)).mpr small
      have mantissa : (BitVec.ofNat 52 m).toNat = m := by
        rw [BitVec.toNat_ofNat, Nat.mod_eq_of_lt small]
      have some : BitVec.ofNat 52 m ≠ 0#52 := by
        intro same
        rw [same] at mantissa
        have zero : (0#52).toNat = 0 := rfl
        omega
      have short : ¬ m.log2 + 1 = 53 := by omega
      subst lowest
      rw [if_neg short, unpack_packComponents]
      have notAll : (0#11 : BitVec 11) ≠ -1#11 := by decide
      simp only [ofFields, if_neg notAll, if_pos, dif_neg some, mantissa]
  · have above : 2 ^ 11 ≤ (e + 1075).toNat + 1 := by omega
    rw [if_pos above, if_neg large]
    cases sign <;> rfl

theorem unpack_pack {f : UnpackedFloat} (canonical : Canonical f) : (pack f).unpack = overflow f := by
  cases f with
  | infinity sign => cases sign <;> rfl
  | notANumber => rfl
  | zero sign => cases sign <;> rfl
  | finite sign m e positive => exact unpack_pack_finite canonical

theorem canonical_ofFields (sign : Sign) (exponent : BitVec 11) (mantissa : BitVec 52) :
    Canonical (ofFields sign exponent mantissa) ∧
      overflow (ofFields sign exponent mantissa) = ofFields sign exponent mantissa := by
  have digits : mantissa.toNat < 2 ^ 52 := mantissa.isLt
  have range : exponent.toNat < 2 ^ 11 := exponent.isLt
  unfold ofFields
  split
  · split <;> exact ⟨trivial, rfl⟩
  · rename_i notAll
    have below : exponent.toNat ≠ 2047 := by
      intro same
      exact notAll (BitVec.eq_of_toNat_eq same)
    split
    · split
      · exact ⟨trivial, rfl⟩
      · exact ⟨⟨by omega, by omega, .inr rfl⟩, rfl⟩
    · rename_i some
      have above : exponent.toNat ≠ 0 := by
        intro same
        exact some (BitVec.eq_of_toNat_eq same)
      refine ⟨⟨by omega, by omega, .inl (by omega)⟩, ?_⟩
      simp only [overflow]
      rw [if_pos (by omega)]

theorem canonical_unpack (x : Float.Model) : Canonical x.unpack ∧ overflow x.unpack = x.unpack := by
  obtain ⟨sign, exponent, mantissa, fields⟩ := exists_packComponents x.toBits.toBitVec
  have same : x.unpack = ofFields sign exponent mantissa := by
    unfold Float.Model.unpack
    rw [fields]
    exact unpack_packComponents sign exponent mantissa
  rw [same]
  exact canonical_ofFields sign exponent mantissa

theorem pack_ofFields (sign : Sign) {exponent : BitVec 11} {mantissa : BitVec 52}
    (number : exponent = -1#11 → mantissa = 0#52) :
    UnpackedFloat.pack Format.binary64 (ofFields sign exponent mantissa) =
      packComponents Format.binary64 sign exponent mantissa := by
  have digits : mantissa.toNat < 2 ^ 52 := mantissa.isLt
  have range : exponent.toNat < 2 ^ 11 := exponent.isLt
  unfold ofFields
  by_cases all : exponent = -1#11
  · rw [if_pos all, if_pos (number all), all, number all]
    rfl
  · have below : exponent.toNat ≠ 2047 := fun same => all (BitVec.eq_of_toNat_eq same)
    rw [if_neg all]
    by_cases none : exponent = 0#11
    · rw [if_pos none, none]
      by_cases zero : mantissa = 0#52
      · rw [dif_pos zero, zero]
        rfl
      · have some : mantissa.toNat ≠ 0 := fun same => zero (BitVec.eq_of_toNat_eq same)
        have log : mantissa.toNat.log2 < 52 := (Nat.log2_lt some).mpr digits
        have short : ¬ mantissa.toNat.log2 + 1 = 53 := by omega
        have fits : ¬ 2 ^ 11 ≤ ((-1074 : Int) + 1075).toNat + 1 := by decide
        rw [dif_neg zero, pack_finite, if_neg fits, if_neg short, BitVec.ofNat_toNat,
          BitVec.setWidth_eq]
    · have above : exponent.toNat ≠ 0 := fun same => none (BitVec.eq_of_toNat_eq same)
      have log : (2 ^ 52 + mantissa.toNat).log2 = 52 :=
        (Nat.log2_eq_iff (by omega)).mpr ⟨by omega, by omega⟩
      have back : ((exponent.toNat : Int) - 1075 + 1075).toNat = exponent.toNat := by omega
      have fits : ¬ 2 ^ 11 ≤ exponent.toNat + 1 := by omega
      have cut : BitVec.ofNat 52 (2 ^ 52 + mantissa.toNat) = mantissa := by
        apply BitVec.eq_of_toNat_eq
        rw [BitVec.toNat_ofNat]
        omega
      rw [if_neg none, pack_finite, back, if_neg fits, log, if_pos rfl, cut, BitVec.ofNat_toNat,
        BitVec.setWidth_eq]

theorem pack_unpack (x : Float.Model) : pack x.unpack = x := by
  obtain ⟨bits, valid⟩ := x
  obtain ⟨sign, exponent, mantissa, fields⟩ := exists_packComponents bits.toBitVec
  have canonical := valid.eq_packedNaN
  unfold Float.Model.unpack Float.Model.pack
  simp only [Float.Model.mk.injEq]
  apply UInt64.eq_of_toBitVec_eq
  change UnpackedFloat.pack Format.binary64
    (UnpackedFloat.unpack Format.binary64 bits.toBitVec) = bits.toBitVec
  rw [fields] at canonical ⊢
  rw [unpackExponent_packComponents, unpackMantissa_packComponents] at canonical
  rw [unpack_packComponents]
  by_cases number : exponent = -1#11 → mantissa = 0#52
  · exact pack_ofFields sign number
  · have all : exponent = -1#11 := Decidable.byContradiction fun other =>
      number fun same => absurd same other
    have some : mantissa ≠ 0#52 := fun zero => number fun _ => zero
    rw [canonical all some, ofFields, if_pos all, if_neg some]
    rfl

/-- Doubles that stand for the same number have the same bits. -/
theorem unpack_inj {x y : Float.Model} (same : x.unpack = y.unpack) : x = y := by
  rw [← pack_unpack x, same, pack_unpack]

end StochasticGrammar.Double

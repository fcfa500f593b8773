import Mathlib
import ScriptCore.Numeric.Binary64

/-!
# Doubles and their bits

A double built from a sign and magnitude bits is taken apart into them again
(`Numeric.parts_ofMagnitude`), and is not a number exactly if its parts say so
(`Numeric.isNaN_iff_parts`). So no double built from magnitude bits up to those of infinity is NaN.
-/
namespace ScriptCore.Numeric

open Float.Model Float.Model.UnpackedFloat

variable {x : Float} {negative : Bool} {m : Nat}

theorem toBits_ofBits {u : UInt64} (h : u.toNat % 2 ^ 63 ≤ infinityBits) : (Float.ofBits u).toBits = u := by
  show UInt64.ofBitVec (UnpackedFloat.pack Format.binary64 (UnpackedFloat.unpack Format.binary64 u.toBitVec)) = u
  rw [pack_unpack _ (by decide), if_neg]
  simp only [isNaNBits, decide_eq_true_eq, not_and, not_not, unpackExponent_def, unpackMantissa_def]
  intro hexponent
  have hexponent := congrArg BitVec.toNat hexponent
  apply BitVec.eq_of_toNat_eq
  simp [infinityBits, BitVec.extractLsb'_toNat, Format.binary64, Nat.shiftRight_eq_div_pow] at hexponent h ⊢
  omega

theorem toNat_toBits_ofMagnitude (h : m ≤ infinityBits) :
    (ofMagnitude negative m).toBits.toNat = if negative then 2 ^ 63 + m else m := by
  have hm : m ≤ 0x7FF * 2 ^ 52 := h
  have hword : (UInt64.ofNat (if negative then Nat.pow 2 63 + m else m)).toNat =
      if negative then 2 ^ 63 + m else m := by
    rw [UInt64.toNat_ofNat', Nat.mod_eq_of_lt]
    · cases negative <;> rfl
    · cases negative <;> simp <;> omega
  have hmagnitude : (UInt64.ofNat (if negative then Nat.pow 2 63 + m else m)).toNat % 2 ^ 63 ≤ infinityBits := by
    rw [hword]
    cases negative <;> simp [infinityBits] <;> omega
  rw [ofMagnitude, toBits_ofBits hmagnitude, hword]

/-- A double is taken apart into the sign and the magnitude that it was built from. -/
theorem parts_ofMagnitude (h : m ≤ infinityBits) : parts (ofMagnitude negative m) = partsOfBits negative m := by
  have hm : m ≤ 0x7FF * 2 ^ 52 := h
  have hpow : Nat.pow 2 63 = 2 ^ 63 := rfl
  unfold parts
  simp only [toNat_toBits_ofMagnitude h, hpow]
  congr 1
  · cases negative
    · simp only [Bool.false_eq_true, if_false, decide_eq_false_iff_not]
      omega
    · simp
  · cases negative <;> simp <;> omega

theorem isNaN_iff_parts : x.isNaN = true ↔ parts x = .nan := by
  have hvalid : Format.binary64.Valid x.toBits.toBitVec := x.toModel.valid
  have hnan : x.isNaN = true ↔ x.toBits.toBitVec = packedNaN Format.binary64 :=
    isNaN_unpack_iff_of_valid hvalid (by decide)
  rw [hnan]
  constructor
  · intro hbits
    have hnat : x.toBits.toNat = (packedNaN Format.binary64).toNat := congrArg BitVec.toNat hbits
    rw [parts, hnat]
    decide +kernel
  · intro hparts
    have hlt : x.toBits.toNat < 2 ^ 64 := x.toBits.toNat_lt
    have hpow : Nat.pow 2 63 = 2 ^ 63 := rfl
    have hpow' : Nat.pow 2 52 = 2 ^ 52 := rfl
    unfold parts partsOfBits at hparts
    simp only [hpow, hpow'] at hparts
    have hfields : 0x7FF ≤ x.toBits.toNat % 2 ^ 63 / 2 ^ 52 ∧ x.toBits.toNat % 2 ^ 63 % 2 ^ 52 ≠ 0 := by
      grind
    -- a double has one encoding of what is no number
    refine hvalid.eq_packedNaN ?_ ?_
    · rw [unpackExponent_def]
      apply BitVec.eq_of_toNat_eq
      simp [BitVec.extractLsb'_toNat, Format.binary64, Nat.shiftRight_eq_div_pow] at hfields ⊢
      omega
    · rw [unpackMantissa_def]
      intro hzero
      have hzero := congrArg BitVec.toNat hzero
      simp [BitVec.extractLsb'_toNat, Format.binary64] at hfields hzero
      omega

theorem isNaN_nan : nan.isNaN = true := by decide +kernel

theorem isNaN_ofMagnitude (h : m ≤ infinityBits) : (ofMagnitude negative m).isNaN = false := by
  have hm : m ≤ 0x7FF * 2 ^ 52 := h
  have hpow : Nat.pow 2 52 = 2 ^ 52 := rfl
  rw [← Bool.not_eq_true, isNaN_iff_parts, parts_ofMagnitude h]
  unfold partsOfBits
  simp only [hpow]
  split
  · rw [if_pos (by omega)]
    simp
  · split <;> simp

theorem nearestMagnitude_le (num den : Nat) : nearestMagnitude num den ≤ infinityBits := by
  unfold nearestMagnitude
  split
  · exact Nat.zero_le _
  · exact Nat.min_le_left _ _

theorem isNaN_ofRatio (negative : Bool) (num den : Nat) : (ofRatio negative num den).isNaN = false :=
  isNaN_ofMagnitude (nearestMagnitude_le num den)

end ScriptCore.Numeric

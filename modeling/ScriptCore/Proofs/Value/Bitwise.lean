import ScriptCore.Proofs.Numeric.Exactness
import ScriptCore.Value.Operator

/-!
# Bitwise operators

Bitwise operators compute in the integers modulo `2 ^ 32` (`World.bitwise_by_residues`). They see an operand as
the integer part of its number, however large, and its residue modulo `2 ^ 32` is all that counts. The
results are residues again, signed ones but for the unsigned shift, and are doubles without rounding.
-/
namespace ScriptCore

namespace Numeric

variable {x : Float} {i j : ℤ}

/-! ## Integer parts -/

/-- The integer part of a number toward zero; zero for what is not finite. -/
def integerPart (x : Float) : ℤ :=
  match rational? x with
  | some q => if q < 0 then ⌈q⌉ else ⌊q⌋
  | none => 0

theorem integerPart_of_rational? (h : rational? x = some (i : ℚ)) : integerPart x = i := by
  simp only [integerPart, h, Int.ceil_intCast, Int.floor_intCast, ite_self]

/-- Cutting off the binary places leaves the integer part. -/
theorem truncate?_eq (x : Float) : (truncate? x).getD 0 = integerPart x := by
  rw [truncate?, integerPart, rational?]
  cases parts x with
  | nan => rfl
  | infinity negative => rfl
  | finite negative mantissa exponent =>
    obtain ⟨hpos, hfraction⟩ := scaleDown_eq mantissa exponent
    have hpos : (0 : ℚ) < (scaleDown mantissa 1 (-exponent)).2 := Nat.cast_pos.mpr hpos
    obtain ⟨q, hq⟩ : ∃ q : ℚ, q = (mantissa : ℚ) * 2 ^ exponent := ⟨_, rfl⟩
    have hnonneg : 0 ≤ q := by
      rw [hq]
      positivity
    -- the places cut off are those of the magnitude, so that the sign tells which way to round
    have hfloor : ⌊q⌋ = (((scaleDown mantissa 1 (-exponent)).1 / (scaleDown mantissa 1 (-exponent)).2 : Nat) : ℤ) := by
      rw [Int.natCast_ediv, ← Rat.floor_natCast_div_natCast, hfraction, ← hq, mul_div_cancel_right₀ _ hpos.ne']
    simp only [Option.getD_some, ← hq, ← hfloor]
    cases negative with
    | false => simp [not_lt.mpr hnonneg]
    | true =>
      obtain hzero | hless := hnonneg.eq_or_lt
      · simp [← hzero]
      · simp [hless, Int.ceil_neg]

/-! ## Words -/

theorem toWord_eq (x : Float) : toWord x = BitVec.ofInt 32 (integerPart x) := by
  rw [toWord, truncate?_eq]

/-- Integers of one residue are one word. -/
theorem ofInt_congr (h : i ≡ j [ZMOD 2 ^ 32]) : BitVec.ofInt 32 i = BitVec.ofInt 32 j := by
  apply BitVec.eq_of_toNat_eq
  rw [BitVec.toNat_ofInt, BitVec.toNat_ofInt]
  exact congrArg Int.toNat h

/-- A bit of the two's complement of an integer in 32 bits. -/
def bit (i : ℤ) (place : Nat) : Bool := (i % 2 ^ 32).toNat.testBit place

theorem getLsbD_ofInt (i : ℤ) (place : Nat) : (BitVec.ofInt 32 i).getLsbD place = bit i place := by
  rw [← BitVec.testBit_toNat, BitVec.toNat_ofInt]
  rfl

theorem bit_toInt (v : BitVec 32) (place : Nat) : bit v.toInt place = v.getLsbD place := by
  rw [← getLsbD_ofInt, BitVec.ofInt_toInt]

/-- The shift counts are the residues modulo 32. -/
theorem shiftCount_ofInt (i : ℤ) : shiftCount (BitVec.ofInt 32 i) = (i % 32).toNat := by
  rw [shiftCount, BitVec.toNat_ofInt]
  push_cast
  omega

theorem toInt_shiftLeft_ofInt (i : ℤ) (count : Nat) :
    (BitVec.ofInt 32 i <<< count).toInt = (i * 2 ^ count).bmod (2 ^ 32) := by
  have hnonneg : 0 ≤ i % ((2 ^ 32 : Nat) : ℤ) := Int.emod_nonneg i (by decide)
  rw [BitVec.toInt_shiftLeft, BitVec.toNat_ofInt, Nat.shiftLeft_eq, Nat.cast_mul, Int.toNat_of_nonneg hnonneg,
    Int.emod_mul_bmod, Nat.cast_pow, Nat.cast_ofNat]

theorem toInt_sshiftRight_ofInt (i : ℤ) (count : Nat) :
    ((BitVec.ofInt 32 i).sshiftRight count).toInt = ⌊((i.bmod (2 ^ 32) : ℤ) : ℚ) / 2 ^ count⌋ := by
  have hfloor := Rat.floor_intCast_div_natCast (i.bmod (2 ^ 32)) (2 ^ count)
  rw [Nat.cast_pow, Nat.cast_ofNat] at hfloor
  rw [BitVec.toInt_sshiftRight, Int.shiftRight_eq_div_pow, BitVec.toInt_ofInt, hfloor]

theorem toNat_ushiftRight_ofInt (i : ℤ) (count : Nat) :
    ((BitVec.ofInt 32 i >>> count).toNat : ℤ) = ⌊((i % 2 ^ 32 : ℤ) : ℚ) / 2 ^ count⌋ := by
  have hnonneg : 0 ≤ i % ((2 ^ 32 : Nat) : ℤ) := Int.emod_nonneg i (by decide)
  have hfloor := Rat.floor_intCast_div_natCast (i % ((2 ^ 32 : Nat) : ℤ)) (2 ^ count)
  rw [Nat.cast_pow 2 count, Nat.cast_ofNat] at hfloor
  rw [BitVec.toNat_ushiftRight, Nat.shiftRight_eq_div_pow, BitVec.toNat_ofInt, Int.natCast_ediv,
    Int.toNat_of_nonneg hnonneg, ← hfloor]
  rfl

theorem rational?_ofSignedWord (v : BitVec 32) : rational? (ofInt v.toInt) = some (v.toInt : ℚ) := by
  have hlow : -2 ^ (32 - 1) ≤ v.toInt := BitVec.le_toInt v
  have hhigh : v.toInt < 2 ^ (32 - 1) := BitVec.toInt_lt
  exact rational?_ofInt (by omega)

end Numeric

namespace World

variable {w w' : World} {a a' b b' : Value} {r : ℤ} {v : BitVec 32}

/-- The integer that bitwise operators see in a value. -/
def integer (w : World) (a : Value) : ℤ := Numeric.integerPart (w.number a)

/-- An operator answers with an integer, as the double that denotes it. -/
def Gives (answer : Except Cause Value) (r : ℤ) : Prop :=
  answer = .ok (.number (Numeric.ofInt r)) ∧ Numeric.rational? (Numeric.ofInt r) = some (r : ℚ)

/-- An operator answers with the signed integer of 32 given bits. -/
def GivesBits (answer : Except Cause Value) (bits : Nat → Bool) : Prop :=
  ∃ r : ℤ, Gives answer r ∧ -2 ^ 31 ≤ r ∧ r < 2 ^ 31 ∧ ∀ place < 32, Numeric.bit r place = bits place

theorem gives_toInt (v : BitVec 32) : Gives (.ok (.number (Numeric.ofSignedWord v))) v.toInt :=
  ⟨rfl, Numeric.rational?_ofSignedWord v⟩

theorem givesBits_toInt {bits : Nat → Bool} (h : ∀ place < 32, v.getLsbD place = bits place) :
    GivesBits (.ok (.number (Numeric.ofSignedWord v))) bits := by
  refine ⟨v.toInt, gives_toInt v, BitVec.le_toInt v, BitVec.toInt_lt, fun place hplace => ?_⟩
  rw [Numeric.bit_toInt, h place hplace]

theorem toWord_number (w : World) (a : Value) : Numeric.toWord (w.number a) = BitVec.ofInt 32 (w.integer a) :=
  Numeric.toWord_eq _

theorem wordOperator_eq (op : BitVec 32 → BitVec 32 → BitVec 32) (a b : Value) :
    w.wordOperator op a b =
      .number (Numeric.ofSignedWord (op (BitVec.ofInt 32 (w.integer a)) (BitVec.ofInt 32 (w.integer b)))) := by
  rw [wordOperator, toWord_number, toWord_number]

/-- The operators on bits, and what they do with two of them. -/
def bitOperators : List (String × (Bool → Bool → Bool)) := [("&", and), ("|", or), ("^", xor)]

/-- The binary bitwise operators. -/
def bitwiseOperators : List String := ["&", "|", "^", "<<", ">>", ">>>"]

/-- The bitwise operators compute with residues modulo `2 ^ 32`. -/
structure Bitwise (w : World) : Prop where
  bits : ∀ op ∈ bitOperators, ∀ a b, GivesBits (w.binary op.1 a b) fun place =>
    op.2 (Numeric.bit (w.integer a) place) (Numeric.bit (w.integer b) place)
  complement : ∀ a, GivesBits (w.unary "~" a) fun place => !Numeric.bit (w.integer a) place
  shiftLeft : ∀ a b, Gives (w.binary "<<" a b) ((w.integer a * 2 ^ (w.integer b % 32).toNat).bmod (2 ^ 32))
  shiftRight : ∀ a b, Gives (w.binary ">>" a b)
    ⌊(((w.integer a).bmod (2 ^ 32) : ℤ) : ℚ) / 2 ^ (w.integer b % 32).toNat⌋
  shiftRightUnsigned : ∀ a b, Gives (w.binary ">>>" a b)
    ⌊((w.integer a % 2 ^ 32 : ℤ) : ℚ) / 2 ^ (w.integer b % 32).toNat⌋
  /-- Only the residues of the operands count, on whichever world they are taken. -/
  residues : ∀ (w' : World) (a a' b b' : Value), w.integer a ≡ w'.integer a' [ZMOD 2 ^ 32] →
    w.integer b ≡ w'.integer b' [ZMOD 2 ^ 32] →
    (∀ op ∈ bitwiseOperators, w.binary op a b = w'.binary op a' b') ∧ w.unary "~" a = w'.unary "~" a'
  /-- What `a | 0` gives, it leaves as it is. -/
  idempotent : ∀ a, ∃ value, w.binary "|" a (.number (Numeric.ofNat 0)) = .ok value ∧
    w.binary "|" value (.number (Numeric.ofNat 0)) = .ok value

theorem gives_shiftRightUnsigned (w : World) (a b : Value) : Gives (.ok (w.shiftRightUnsigned a b))
    ⌊((w.integer a % 2 ^ 32 : ℤ) : ℚ) / 2 ^ (w.integer b % 32).toNat⌋ := by
  rw [shiftRightUnsigned, toWord_number, toWord_number, Numeric.shiftCount_ofInt,
    ← Numeric.toNat_ushiftRight_ofInt, Numeric.ofUnsignedWord, Numeric.ofNat_eq_ofInt]
  refine ⟨rfl, Numeric.rational?_ofInt ?_⟩
  have hlt := (BitVec.ofInt 32 (w.integer a) >>> (w.integer b % 32).toNat).isLt
  rw [Int.natAbs_natCast]
  exact hlt.le.trans (by decide)

/-- Operators on the words of the operands give one answer to operands of the same words. -/
theorem binary_congr {op : String} (hop : op ∈ bitwiseOperators)
    (ha : Numeric.toWord (w.number a) = Numeric.toWord (w'.number a'))
    (hb : Numeric.toWord (w.number b) = Numeric.toWord (w'.number b')) :
    w.binary op a b = w'.binary op a' b' := by
  simp only [bitwiseOperators, List.mem_cons, List.not_mem_nil, or_false] at hop
  rcases hop with rfl | rfl | rfl | rfl | rfl | rfl <;>
    simp only [binary, wordOperator, shiftRightUnsigned, ha, hb]

/-- Beside zero the operator `|` gives the word of its operand. -/
theorem binary_or_zero (w : World) (a : Value) : w.binary "|" a (.number (Numeric.ofNat 0)) =
    .ok (.number (Numeric.ofSignedWord (Numeric.toWord (w.number a)))) := by
  have hzero : Numeric.toWord (Numeric.ofNat 0) = 0#32 := by decide +kernel
  have hnumber : w.number (.number (Numeric.ofNat 0)) = Numeric.ofNat 0 := rfl
  simp only [binary, wordOperator, hnumber, hzero, BitVec.or_zero]

/-- **Bitwise operators compute modulo `2 ^ 32`,** on every world. -/
theorem bitwise_by_residues (w : World) : w.Bitwise where
  bits op hop a b := by
    simp only [bitOperators, List.mem_cons, List.not_mem_nil, or_false] at hop
    rcases hop with rfl | rfl | rfl <;>
      simp only [binary, wordOperator_eq] <;>
      refine givesBits_toInt fun place _ => ?_ <;>
      simp only [BitVec.getLsbD_and, BitVec.getLsbD_or, BitVec.getLsbD_xor, Numeric.getLsbD_ofInt]
  complement a := by
    simp only [unary, toWord_number]
    refine givesBits_toInt fun place hplace => ?_
    rw [BitVec.getLsbD_not, decide_eq_true hplace, Bool.true_and, Numeric.getLsbD_ofInt]
  shiftLeft a b := by
    simp only [binary, wordOperator_eq, Numeric.shiftCount_ofInt, ← Numeric.toInt_shiftLeft_ofInt]
    exact gives_toInt _
  shiftRight a b := by
    simp only [binary, wordOperator_eq, Numeric.shiftCount_ofInt, ← Numeric.toInt_sshiftRight_ofInt]
    exact gives_toInt _
  shiftRightUnsigned a b := gives_shiftRightUnsigned w a b
  residues w' a a' b b' ha hb := by
    have ha : Numeric.toWord (w.number a) = Numeric.toWord (w'.number a') := by
      rw [toWord_number, toWord_number, Numeric.ofInt_congr ha]
    have hb : Numeric.toWord (w.number b) = Numeric.toWord (w'.number b') := by
      rw [toWord_number, toWord_number, Numeric.ofInt_congr hb]
    exact ⟨fun op hop => binary_congr hop ha hb, by simp only [unary, ha]⟩
  idempotent a := by
    refine ⟨_, binary_or_zero w a, ?_⟩
    have hword : Numeric.toWord (Numeric.ofSignedWord (Numeric.toWord (w.number a))) = Numeric.toWord (w.number a) := by
      rw [Numeric.toWord_eq, Numeric.ofSignedWord,
        Numeric.integerPart_of_rational? (Numeric.rational?_ofSignedWord _), BitVec.ofInt_toInt]
    have hnumber (x : Float) : w.number (.number x) = x := rfl
    rw [binary_or_zero, hnumber, hword]

end World

end ScriptCore

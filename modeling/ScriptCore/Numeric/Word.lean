import ScriptCore.Numeric.Binary64

/-!
# Numbers as 32-bit words

Bitwise operators see a number as the residue of its integer part modulo `2 ^ 32`. What has no
integer part (infinities and not-a-number) counts as zero.
-/
namespace ScriptCore.Numeric

/-- The integer part of a number as a 32-bit word. -/
def toWord (x : Float) : BitVec 32 := BitVec.ofInt 32 ((truncate? x).getD 0)

/-- A word read as a signed integer. -/
def ofSignedWord (w : BitVec 32) : Float := ofInt w.toInt

/-- A word read as an unsigned integer. -/
def ofUnsignedWord (w : BitVec 32) : Float := ofNat w.toNat

/-- Shift operators use the shift count modulo 32. -/
def shiftCount (w : BitVec 32) : Nat := w.toNat % 32

end ScriptCore.Numeric

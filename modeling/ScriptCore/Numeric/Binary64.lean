/-!
# Doubles as exact numbers

A finite double is a sign, a natural mantissa and a power of two. `parts` takes a double apart,
`ofRatio` gives the double nearest to a fraction (of two equally near ones the one with an even
mantissa; beyond the largest double, infinity). Everything that has to be exact about numbers, such
as their decimal text or their residues, is computed on these parts with natural numbers. Powers of
two are written `Nat.pow`, which is one function under every import.
-/
namespace ScriptCore.Numeric

/-- What a double denotes; the value of `finite s m e` is `m * 2 ^ e`, negated if `s`. -/
inductive Parts where
  | nan
  | infinity (negative : Bool)
  | finite (negative : Bool) (mantissa : Nat) (exponent : Int)
  deriving DecidableEq, Repr

/-- The exponent of the subnormal numbers, and so the least exponent of `parts`. -/
def minExponent : Int := -1074

/-- The magnitude bits of infinity. -/
def infinityBits : Nat := 0x7FF * Nat.pow 2 52

/-- The parts of the double with the given magnitude bits and sign. -/
def partsOfBits (negative : Bool) (magnitude : Nat) : Parts :=
  let fraction := magnitude % Nat.pow 2 52
  let biased := magnitude / Nat.pow 2 52
  if 0x7FF ≤ biased then if fraction = 0 then .infinity negative else .nan
  else if biased = 0 then .finite negative fraction minExponent
  else .finite negative (Nat.pow 2 52 + fraction) (minExponent + (biased - 1 : Nat))

def parts (x : Float) : Parts :=
  let bits := x.toBits.toNat
  partsOfBits (Nat.pow 2 63 ≤ bits) (bits % Nat.pow 2 63)

/-- The double with the given sign and magnitude bits. -/
def ofMagnitude (negative : Bool) (magnitude : Nat) : Float :=
  Float.ofBits (UInt64.ofNat (if negative then Nat.pow 2 63 + magnitude else magnitude))

/-- The integer nearest to `num / den`; a half goes to the even neighbour. -/
def roundedQuotient (num den : Nat) : Nat :=
  let quotient := num / den
  let double := 2 * (num % den)
  if double < den then quotient
  else if den < double then quotient + 1
  else quotient + quotient % 2

/-- The fraction `num / den` divided by a power of two. -/
def scaleDown (num den : Nat) (exponent : Int) : Nat × Nat :=
  if 0 ≤ exponent then (num, den * Nat.pow 2 exponent.toNat)
  else (num * Nat.pow 2 (-exponent).toNat, den)

/-- The exponent at which `num / den` has a mantissa of 53 bits, but never below `minExponent`. -/
def exponentOf (num den : Nat) : Int :=
  let estimate : Int := num.log2 - den.log2 - 53
  let scaled := scaleDown num den estimate
  let exponent := if scaled.1 < Nat.pow 2 53 * scaled.2 then estimate else estimate + 1
  max exponent minExponent

/-- The magnitude bits of the double nearest to `num / den`. A mantissa rounded up to `2 ^ 53`
carries into the exponent bits by itself. -/
def nearestMagnitude (num den : Nat) : Nat :=
  if num = 0 then 0
  else
    let exponent := exponentOf num den
    let scaled := scaleDown num den exponent
    let mantissa := roundedQuotient scaled.1 scaled.2
    min infinityBits ((exponent - minExponent).toNat * Nat.pow 2 52 + mantissa)

/-- The double nearest to `num / den`, negated if `negative`. -/
def ofRatio (negative : Bool) (num den : Nat) : Float :=
  ofMagnitude negative (nearestMagnitude num den)

def ofNat (n : Nat) : Float := ofRatio false n 1

def ofInt (i : Int) : Float := ofRatio (i < 0) i.natAbs 1

/-- The double nearest to `mantissa * 2 ^ exponent`, negated if `negative`. -/
def ofDyadic (negative : Bool) (mantissa : Nat) (exponent : Int) : Float :=
  let scaled := scaleDown mantissa 1 (-exponent)
  ofRatio negative scaled.1 scaled.2

def nan : Float := Float.ofBits 0x7FF8000000000000

def infinity (negative : Bool) : Float := ofMagnitude negative infinityBits

/-- The integer part toward zero; `none` for infinities and for what is no number. -/
def truncate? (x : Float) : Option Int :=
  match parts x with
  | .finite negative mantissa exponent =>
    let magnitude := (scaleDown mantissa 1 (-exponent)).1 / (scaleDown mantissa 1 (-exponent)).2
    some (if negative then -(magnitude : Int) else magnitude)
  | _ => none

/-- The integer part of the double nearest to a natural number; the number itself if that is infinity. -/
def rounded (n : Nat) : Nat :=
  match truncate? (ofNat n) with
  | some whole => whole.toNat
  | none => n

/-- The natural number that a double is exactly, if it is one (`-0` counts as zero). -/
def toNat? (x : Float) : Option Nat :=
  match parts x with
  | .finite negative mantissa exponent =>
    let scaled := scaleDown mantissa 1 (-exponent)
    if scaled.1 % scaled.2 = 0 && (!negative || mantissa = 0) then some (scaled.1 / scaled.2)
    else none
  | _ => none

def isNegativeZero (x : Float) : Bool := x.toBits = 0x8000000000000000

end ScriptCore.Numeric

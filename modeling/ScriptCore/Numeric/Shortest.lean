import ScriptCore.Numeric.Binary64

/-!
# Shortest decimal digits

The decimal of fewest digits that reads back as a given double, and of those the one nearest to it.
For one, two, … seventeen digits the two neighbours of the exact value on that decimal grid are read
back; the first grid with a hit gives the digits, the nearer neighbour if both hit, the upper one on
a tie. A hit on one grid means a hit on every finer grid, so when fifteen digits miss, only sixteen and
seventeen are left to try. Seventeen digits always suffice; the exact decimal closes the search in any
case.
-/
namespace ScriptCore.Numeric

/-- The number `digits * 10 ^ exponent`. -/
structure Decimal where
  digits : Nat
  exponent : Int
  deriving DecidableEq, Repr

namespace Decimal

def ratio (d : Decimal) : Nat × Nat :=
  if 0 ≤ d.exponent then (d.digits * Nat.pow 10 d.exponent.toNat, 1)
  else (d.digits, Nat.pow 10 (-d.exponent).toNat)

/-- The magnitude bits of the double nearest to the decimal. -/
def magnitude (d : Decimal) : Nat := nearestMagnitude d.ratio.1 d.ratio.2

/-- Trailing zeros moved into the exponent, at most `fuel` of them. -/
def trimmedWithin : Nat → Decimal → Decimal
  | 0, d => d
  | fuel + 1, d =>
    if d.digits ≠ 0 ∧ d.digits % 10 = 0 then trimmedWithin fuel ⟨d.digits / 10, d.exponent + 1⟩
    else d

/-- The same decimal without trailing zeros in its digits. -/
def trimmed (d : Decimal) : Decimal := trimmedWithin d.digits.log2 d

end Decimal

/-- Whether `10 ^ exponent ≤ num / den`. -/
def reaches (num den : Nat) (exponent : Int) : Bool :=
  if 0 ≤ exponent then den * Nat.pow 10 exponent.toNat ≤ num
  else den ≤ num * Nat.pow 10 (-exponent).toNat

/-- The largest `k` with `10 ^ k ≤ num / den`, found from an estimate at most one off: the binary
logarithms tell the fraction up to a factor of two, and `30103 / 100000` is the logarithm of two. -/
def decimalExponent (num den : Nat) : Int :=
  let estimate : Int := ((num.log2 : Int) - den.log2) * 30103 / 100000
  if reaches num den (estimate + 1) then estimate + 1
  else if reaches num den estimate then estimate
  else estimate - 1

/-- `num / den` in units of `10 ^ exponent`: the whole part, and twice the rest against the unit. -/
def onGrid (num den : Nat) (exponent : Int) : Nat × Ordering :=
  let scaled : Nat × Nat :=
    if 0 ≤ exponent then (num, den * Nat.pow 10 exponent.toNat)
    else (num * Nat.pow 10 (-exponent).toNat, den)
  (scaled.1 / scaled.2, compare (2 * (scaled.1 % scaled.2)) scaled.2)

/-- The neighbour of `num / den` on the grid `10 ^ exponent` that reads back as `magnitude`. -/
def hitOnGrid (num den magnitude : Nat) (exponent : Int) : Option Decimal :=
  let (below, rest) := onGrid num den exponent
  let lower : Decimal := ⟨below, exponent⟩
  let upper : Decimal := ⟨below + 1, exponent⟩
  match lower.magnitude == magnitude, upper.magnitude == magnitude with
  | true, true => some (if rest = .lt then lower else upper)
  | true, false => some lower
  | false, true => some upper
  | false, false => none

/-- The first hit on the grids of exponents `exponent`, `exponent - 1`, …. -/
def firstHit (num den magnitude : Nat) : Nat → Int → Option Decimal
  | 0, _ => none
  | fuel + 1, exponent =>
    match hitOnGrid num den magnitude exponent with
    | some d => some d
    | none => firstHit num den magnitude fuel (exponent - 1)

/-- The first hit on the grids of one to seventeen digits, of which the coarsest has the given exponent. -/
def shortestHit (num den magnitude : Nat) (exponent : Int) : Option Decimal :=
  if (hitOnGrid num den magnitude (exponent - 14)).isSome then
    firstHit num den magnitude 15 exponent
  else firstHit num den magnitude 2 (exponent - 15)

/-- The value `mantissa * 2 ^ exponent` as a decimal, without any rounding. -/
def exactDecimal (mantissa : Nat) (exponent : Int) : Decimal :=
  if 0 ≤ exponent then ⟨mantissa * Nat.pow 2 exponent.toNat, 0⟩
  else ⟨mantissa * Nat.pow 5 (-exponent).toNat, exponent⟩

/-- The shortest decimal of the positive double `mantissa * 2 ^ exponent`. Integers below `2 ^ 53` lie at
least one apart from each other and from every shorter decimal, so their own digits are the shortest. -/
def shortest (mantissa : Nat) (exponent : Int) : Decimal :=
  let (num, den) := scaleDown mantissa 1 (-exponent)
  if num % den = 0 ∧ num / den < Nat.pow 2 53 then Decimal.trimmed ⟨num / den, 0⟩
  else
    ((shortestHit num den (nearestMagnitude num den) (decimalExponent num den)).getD
      (exactDecimal mantissa exponent)).trimmed

end ScriptCore.Numeric

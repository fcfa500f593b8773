import ScriptCore.Numeric.Binary64

/-!
# Remainder and power

The remainder has the sign of its left operand and is exact: both operands are integers at a common
power of two. Powers follow the hardware except where the language asks for not-a-number.
-/
namespace ScriptCore.Numeric

/-- The remainder of the truncating division. -/
def remainder (x y : Float) : Float :=
  match parts x, parts y with
  | .finite negative m e, .finite _ n f =>
    if n = 0 then nan
    else
      let common := min e f
      let rest := m * Nat.pow 2 (e - common).toNat % (n * Nat.pow 2 (f - common).toNat)
      ofDyadic negative rest common
  | .finite _ _ _, .infinity _ => x
  | _, _ => nan

/-- Exponentiation; a base of magnitude one has no power at an infinite exponent. -/
def power (base exponent : Float) : Float :=
  if exponent.isNaN || (base.abs == 1.0 && exponent.isInf) then nan else base.pow exponent

end ScriptCore.Numeric

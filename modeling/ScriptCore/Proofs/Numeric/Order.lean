import Mathlib
import ScriptCore.Numeric.Binary64

/-!
# The order of doubles

Two doubles are compared by the numbers that they unpack to. The comparison has no answer exactly when one of
them is not a number (`Numeric.order_eq_none`), and seen from the other side it is turned round
(`Numeric.order_swap`).
-/
namespace ScriptCore.Numeric

open Float.Model

variable {x y : Float}

/-- The order of two doubles as unpacked. -/
def order (x y : Float) : Option Ordering := x.toModel.unpack.compare y.toModel.unpack

theorem lt_iff_order : x < y ↔ order x y = some .lt := by
  show (decide (x.toModel.unpack.lt y.toModel.unpack = true)) = true ↔ _
  simp [UnpackedFloat.lt, order]

theorem beq_iff_order : (x == y) = true ↔ order x y = some .eq := by
  show (x.toModel.unpack.compare y.toModel.unpack == some .eq) = true ↔ _
  simp [order]

theorem isNaN_iff_unpack : x.isNaN = true ↔ x.toModel.unpack = .notANumber :=
  UnpackedFloat.isNaN_iff

theorem swap_then_compare {e e' : Int} {m m' : Nat} :
    ((compare e e').then (compare m m')).swap = (compare e' e).then (compare m' m) := by
  rw [Ordering.swap_then, ← Std.OrientedCmp.eq_swap, ← Std.OrientedCmp.eq_swap]

theorem order_swap (x y : Float) : order y x = (order x y).map Ordering.swap := by
  unfold order
  -- the signs are split too, since the comparison of two finite numbers turns round below zero
  rcases x.toModel.unpack with (_ | _) | _ | _ | ⟨_ | _, m, e, hm⟩ <;>
    rcases y.toModel.unpack with (_ | _) | _ | _ | ⟨_ | _, m', e', hm'⟩ <;>
    first | rfl | simp [UnpackedFloat.compare, swap_then_compare]

theorem order_eq_none : order x y = none ↔ x.isNaN = true ∨ y.isNaN = true := by
  rw [isNaN_iff_unpack, isNaN_iff_unpack, order]
  fun_cases UnpackedFloat.compare x.toModel.unpack y.toModel.unpack <;> simp_all

/-- A double equals itself unless it is not a number. -/
theorem beq_self (x : Float) : (x == x) = !x.isNaN := by
  rw [Bool.eq_iff_iff, Float.beq_self_iff, Float.isNaN_eq_decide_eq_nan]
  simp

end ScriptCore.Numeric

import ScriptCore.Proofs.Numeric.Layout
import ScriptCore.Proofs.Value.Comparing

/-!
# Numbers as texts and as keys

A number comes back from its text as the same double, so it is loosely equal to that text, shares its key with no
other number, and stands for the index of an array if it is a whole number in range
(`World.numbers_kept`). Zero is one number here: neither text nor key shows its sign.
-/
namespace ScriptCore.World

open Numeric

variable {w : World} {x : Float}

/-- Two zeros are equal whatever their signs. -/
theorem beq_of_zeros {y : Float} (hx : rational? x = some 0) (hy : rational? y = some 0) : (x == y) = true := by
  obtain ⟨negative, rfl⟩ := eq_zero_of_rational? hx
  obtain ⟨negative', rfl⟩ := eq_zero_of_rational? hy
  cases negative <;> cases negative' <;> decide +kernel

/-- A number equals what is read off its text. -/
theorem beq_read_format (h : x.isNaN = false) : (x == read (format x)) = true := by
  rw [read_format_eq h]
  split
  next hzero => exact beq_of_zeros (rational?_of_isNegativeZero hzero) (rational?_of_eq_zero rfl)
  next => rw [beq_self, h, Bool.not_false]

theorem looseEquals_text_of_number (h : x.isNaN = false) :
    w.looseEquals (.number x) (.str (w.text (.number x))) = true :=
  beq_read_format h

/-- The key of a whole number in range is the index of that number. -/
theorem isIndex_key {i : Nat} (h : rational? x = some (i : ℚ)) (hi : i < 2 ^ 32 - 1) : IsIndex (w.key (.number x)) i :=
  ⟨hi, format_of_whole h (by omega)⟩

/-- Numbers keep what they are as texts and as keys. -/
structure NumbersKept (w : World) : Prop where
  /-- A number is read back from its text, and zero without its sign. -/
  read_back : ∀ x, x.isNaN = false → read (format x) = if isNegativeZero x then ofNat 0 else x
  /-- It is loosely equal to its text, on either side of the operator. -/
  loosely_equal : ∀ x, x.isNaN = false →
    w.binary "==" (.number x) (.str (w.text (.number x))) = .ok (.bool true) ∧
    w.binary "==" (.str (w.text (.number x))) (.number x) = .ok (.bool true)
  /-- Different numbers have different keys, zeros aside. -/
  keys : ∀ x y, w.key (.number x) = w.key (.number y) ↔ x = y ∨ rational? x = some 0 ∧ rational? y = some 0
  /-- The integers below `2 ^ 32 - 1` are numbers, and their keys are the canonical indices. -/
  indices : ∀ i < 2 ^ 32 - 1, rational? (ofNat i) = some (i : ℚ) ∧ ∀ x, rational? x = some (i : ℚ) →
    w.key (.number x) = toString i ∧ arrayIndex? (w.key (.number x)) = some i

/-- **Numbers survive the way through texts,** on every world. -/
theorem numbers_kept (w : World) : w.NumbersKept where
  read_back x h := read_format_eq h
  loosely_equal x h := by
    have hequal := looseEquals_text_of_number (w := w) h
    exact ⟨by simp only [binary, hequal], by simp only [binary, looseEquals_comm w (.str _), hequal]⟩
  keys x y := format_eq_iff
  indices i hi := by
    refine ⟨?_, fun x hx => ?_⟩
    · rw [ofNat_eq_ofInt, rational?_ofInt (by rw [Int.natAbs_natCast]; omega), Int.cast_natCast]
    · have hindex := isIndex_key (w := w) hx hi
      exact ⟨hindex.2, arrayIndex?_eq_some_iff.mpr hindex⟩

end ScriptCore.World

import Mathlib.Algebra.Order.Field.Rat
import Mathlib.Algebra.Order.Field.Power
import Mathlib.Data.Nat.Cast.Order.Field
import Mathlib.Data.Rat.Cast.Order
import Mathlib.Tactic.FieldSimp
import Mathlib.Tactic.Linarith
import Mathlib.Tactic.Positivity
import ScriptCore.Numeric.Printer
import ScriptCore.Numeric.Reader
import ScriptCore.Value.Property

/-!
# Whole numbers

Whole numbers come as doubles and as numerals. A finite double denotes a rational number, and is whole if
that number is (`Numeric.toNat?_eq_some_iff`). A key is the index of an array if it is the canonical numeral
of a number below `2 ^ 32 - 1` (`arrayIndex?_eq_some_iff`), while a word is read off any numeral, with zeros
or a plus sign in front (`Numeric.readWord?_eq_some_iff`).
-/
namespace ScriptCore

namespace Numeric

/-! ## Doubles -/

/-- The number that a double denotes, if it is finite. -/
def rational? (x : Float) : Option ℚ :=
  match parts x with
  | .finite negative mantissa exponent =>
    some ((if negative then -1 else 1) * ((mantissa : ℚ) * (2 : ℚ) ^ exponent))
  | _ => none

/-- Scaling a mantissa down gives the number that it denotes as a fraction. -/
theorem scaleDown_eq (mantissa : Nat) (exponent : Int) :
    0 < (scaleDown mantissa 1 (-exponent)).2 ∧
      ((scaleDown mantissa 1 (-exponent)).1 : ℚ) =
        (mantissa : ℚ) * (2 : ℚ) ^ exponent * ((scaleDown mantissa 1 (-exponent)).2 : ℚ) := by
  obtain ⟨n, rfl | rfl⟩ := exponent.eq_nat_or_neg
  · rw [scaleDown]
    split
    next hle =>
      obtain rfl : n = 0 := by omega
      simp
    next => simp
  · rw [scaleDown, if_pos (by omega)]
    simp

/-- A fraction is a whole number if its denominator divides its numerator. -/
theorem natCast_of_fraction {q : ℚ} {num den : Nat} (hden : 0 < den) (hq : (num : ℚ) = q * den) (n : Nat) :
    q = n ↔ num % den = 0 ∧ num / den = n := by
  have hcast : q = n ↔ num = n * den := by
    have hden' : (den : ℚ) ≠ 0 := Nat.cast_ne_zero.mpr (Nat.ne_of_gt hden)
    rw [← mul_left_inj' hden', ← hq]
    exact_mod_cast Iff.rfl
  rw [hcast]
  constructor
  · rintro rfl
    exact ⟨Nat.mul_mod_left n den, Nat.mul_div_cancel n hden⟩
  · rintro ⟨hmod, rfl⟩
    exact (Nat.div_mul_cancel (Nat.dvd_of_mod_eq_zero hmod)).symm

/-- **A double is read as a natural number if it denotes that number.** -/
theorem toNat?_eq_some_iff {x : Float} {n : Nat} : toNat? x = some n ↔ rational? x = some (n : ℚ) := by
  rw [toNat?, rational?]
  cases parts x with
  | nan => simp
  | infinity negative => simp
  | finite negative mantissa exponent =>
    obtain ⟨hpos, heq⟩ := scaleDown_eq mantissa exponent
    have hwhole := natCast_of_fraction hpos heq n
    by_cases hsign : negative = true ∧ mantissa ≠ 0
    · obtain ⟨rfl, hmantissa⟩ := hsign
      have hvalue : (0 : ℚ) < (mantissa : ℚ) * (2 : ℚ) ^ exponent :=
        mul_pos (by exact_mod_cast Nat.pos_of_ne_zero hmantissa) (zpow_pos two_pos exponent)
      have hnegative : -((mantissa : ℚ) * (2 : ℚ) ^ exponent) ≠ n := by
        have hn : (0 : ℚ) ≤ n := Nat.cast_nonneg n
        linarith
      simp [hmantissa, hnegative]
    · have hsigned : (if negative then (-1 : ℚ) else 1) * ((mantissa : ℚ) * (2 : ℚ) ^ exponent) =
          (mantissa : ℚ) * (2 : ℚ) ^ exponent := by
        cases negative with
        | false => simp
        | true =>
          obtain rfl : mantissa = 0 := by simpa using hsign
          simp
      have hplain : (!negative || decide (mantissa = 0)) = true := by
        cases negative <;> simp_all
      simp only [hsigned, hplain, Bool.and_true, decide_eq_true_eq, Option.some.injEq, hwhole]
      split <;> simp_all

/-! ## Numerals -/

theorem isDigit_eq (c : Char) : isDigit c = c.isDigit := by
  simp only [isDigit, Char.isDigit, Char.le_def]

theorem decimalValue_eq (cs : List Char) : decimalValue cs = Nat.ofDigitChars 10 cs 0 := by
  simp only [decimalValue, Nat.ofDigitChars_eq_foldl, Nat.mul_comm]

theorem all_isDigit_naturalDigits (n : Nat) : (naturalDigits n).all isDigit = true := by
  refine List.all_eq_true.mpr fun c hc => ?_
  rw [isDigit_eq]
  exact Nat.isDigit_of_mem_toDigits (by decide) (by decide) hc

theorem decimalValue_naturalDigits (n : Nat) : decimalValue (naturalDigits n) = n := by
  rw [decimalValue_eq]
  exact Nat.ofDigitChars_toDigits (by decide) (by decide)

theorem toList_toString (n : Nat) : (toString n).toList = naturalDigits n := by
  rw [Nat.toString_eq_ofList_toDigits, String.toList_ofList, naturalDigits]

/-- A numeral of a number: one or more digits, with any number of zeros in front. -/
structure IsNumeral (cs : List Char) (n : Nat) : Prop where
  nonempty : cs ≠ []
  digits : cs.all isDigit = true
  value : decimalValue cs = n

theorem isNumeral_naturalDigits (n : Nat) : IsNumeral (naturalDigits n) n where
  nonempty := Nat.toDigits_ne_nil
  digits := all_isDigit_naturalDigits n
  value := decimalValue_naturalDigits n

/-- In radix ten, the digits that are read are the decimal ones. -/
theorem digitValue?_lt_ten {c : Char} {d : Nat} :
    (digitValue? c = some d ∧ d < 10) ↔ isDigit c = true ∧ c.toNat - '0'.toNat = d := by
  constructor
  · rintro ⟨hvalue, hd⟩
    unfold digitValue? at hvalue
    split at hvalue
    next hdigit => exact ⟨hdigit, Option.some.inj hvalue⟩
    · split at hvalue
      · cases hvalue
        omega
      · split at hvalue
        · cases hvalue
          omega
        · cases hvalue
  · rintro ⟨hdigit, rfl⟩
    have hrange := hdigit
    simp only [isDigit, Char.le_def, Bool.and_eq_true, decide_eq_true_eq] at hrange
    have hle : c.toNat ≤ '9'.toNat := hrange.2
    have hnine : '9'.toNat = '0'.toNat + 9 := rfl
    refine ⟨by rw [digitValue?, if_pos hdigit], by omega⟩

theorem digitsValue?_ten (acc : Nat) (cs : List Char) (n : Nat) :
    digitsValue? 10 acc cs = some n ↔
      cs.all isDigit = true ∧ cs.foldl (fun acc c => acc * 10 + (c.toNat - '0'.toNat)) acc = n := by
  induction cs generalizing acc with
  | nil => simp [digitsValue?]
  | cons c rest ih =>
    rw [List.all_cons, Bool.and_eq_true, List.foldl_cons, digitsValue?]
    by_cases hdigit : isDigit c = true
    · obtain ⟨hvalue, hlt⟩ := digitValue?_lt_ten.mpr ⟨hdigit, rfl⟩
      simp only [hvalue, if_pos hlt, ih, hdigit, true_and]
    · have hnone : ∀ d, digitValue? c = some d → ¬ d < 10 := fun d hd hlt =>
        hdigit (digitValue?_lt_ten.mp ⟨hd, hlt⟩).1
      refine iff_of_false ?_ fun h => hdigit h.1.1
      split
      next d hd => simp [hnone d hd]
      · simp

/-- **A word is read off any numeral of it,** also after a plus sign. -/
theorem readWord?_eq_some_iff {cs : List Char} {n : Nat} :
    readWord? 10 cs = some n ↔ n < 2 ^ 64 ∧ (IsNumeral cs n ∨ ∃ ds, cs = '+' :: ds ∧ IsNumeral ds n) := by
  have hdigits (ds : List Char) :
      (if ds.isEmpty then none else (digitsValue? 10 0 ds).filter (· < Nat.pow 2 64)) = some n ↔
        n < 2 ^ 64 ∧ IsNumeral ds n := by
    split
    next hempty =>
      have hnil : ds = [] := by simpa using hempty
      exact iff_of_false (by simp) fun h => h.2.nonempty hnil
    next hempty =>
      have hne : ds ≠ [] := by simpa using hempty
      rw [Option.filter_eq_some_iff, digitsValue?_ten, decide_eq_true_eq]
      exact ⟨fun ⟨⟨hall, hvalue⟩, hlt⟩ => ⟨hlt, hne, hall, hvalue⟩, fun ⟨hlt, h⟩ => ⟨⟨h.digits, h.value⟩, hlt⟩⟩
  refine (hdigits _).trans (and_congr_right fun _ => ?_)
  split
  next rest =>
    have hsign : ¬ IsNumeral ('+' :: rest) n := fun h => absurd h.digits (by simp [isDigit, Char.le_def])
    simp [hsign]
  next hsign =>
    have hplain : ¬ ∃ ds, cs = '+' :: ds ∧ IsNumeral ds n := fun ⟨ds, heq, _⟩ => hsign ds heq
    simp [hplain]

end Numeric

/-! ## Indices -/

/-- A key denotes an index of an array: it is the canonical numeral of a number below `2 ^ 32 - 1`. -/
def IsIndex (key : String) (index : Nat) : Prop := index < 2 ^ 32 - 1 ∧ key = toString index

theorem arrayIndex?_eq_some_iff {key : String} {index : Nat} :
    arrayIndex? key = some index ↔ IsIndex key index := by
  have hkey : key = toString index ↔ key.toList = Numeric.naturalDigits index := by
    rw [← Numeric.toList_toString, String.toList_inj]
  rw [arrayIndex?, IsIndex, hkey]
  constructor
  · intro h
    split at h
    · cases h
    · simp only at h
      split at h
      next hcanonical =>
        cases h
        exact ⟨hcanonical.1, hcanonical.2.symm⟩
      · cases h
  · rintro ⟨hlt, heq⟩
    obtain ⟨hne, hall, hvalue⟩ := Numeric.isNumeral_naturalDigits index
    simp only [heq, hvalue]
    rw [if_neg (by simp [hne, hall]), if_pos ⟨hlt, trivial⟩]

/-- The length of an array is no index. -/
theorem IsIndex.ne_length {key : String} {index : Nat} (h : IsIndex key index) : key ≠ "length" := by
  rintro rfl
  have hnone : arrayIndex? "length" = none := by decide
  rw [arrayIndex?_eq_some_iff.mpr h] at hnone
  cases hnone

end ScriptCore

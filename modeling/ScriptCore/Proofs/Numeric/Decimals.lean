import ScriptCore.Proofs.Numeric.Exactness
import ScriptCore.Numeric.Reader

/-!
# Decimals that read back

Which double a decimal is read as depends on its value alone (`Numeric.Decimal.magnitude_congr`), and the bounds
outside which the reader does not compute it take nothing away (`Numeric.ofDecimal_eq`). The shortest digits of a
double read back as that double (`Numeric.magnitude_shortest`): a hit on a grid was read back, its trailing
zeros do not change its value, and the decimal that closes the search is the double itself.
-/
namespace ScriptCore.Numeric

variable {d d' : Decimal} {m mantissa : Nat} {exponent : Int} {q : ℚ}

namespace Decimal

/-- The number that a decimal denotes. -/
def value (d : Decimal) : ℚ := d.digits * 10 ^ d.exponent

theorem ratio_value (d : Decimal) : 0 < d.ratio.2 ∧ (d.ratio.1 : ℚ) / d.ratio.2 = d.value := by
  have hpow (n : Nat) : Nat.pow 10 n = 10 ^ n := rfl
  rw [ratio, value]
  simp only [hpow]
  split
  next hle =>
    obtain ⟨n, hn⟩ := Int.eq_ofNat_of_zero_le hle
    simp [hn]
  next hlt =>
    obtain ⟨n, hn⟩ : ∃ n : Nat, d.exponent = -(n : Int) := ⟨(-d.exponent).toNat, by omega⟩
    simp [hn, div_eq_mul_inv]

theorem magnitude_congr (h : d.value = d'.value) : d.magnitude = d'.magnitude := by
  obtain ⟨hden, hvalue⟩ := d.ratio_value
  obtain ⟨hden', hvalue'⟩ := d'.ratio_value
  exact nearestMagnitude_congr hden hden' (by rw [hvalue, hvalue', h])

theorem nearest_magnitude (d : Decimal) : Nearest (d.value / 2 ^ minExponent) d.magnitude := by
  obtain ⟨hden, hvalue⟩ := d.ratio_value
  have hnearest := nearest_nearestMagnitude d.ratio.1 hden
  rwa [unitsOf, hvalue] at hnearest

/-- A decimal that is a magnitude is read as that magnitude. -/
theorem magnitude_of_value (h : d.value = units m * 2 ^ minExponent) (hm : m ≤ infinityBits) : d.magnitude = m := by
  have hnearest := d.nearest_magnitude
  rw [h, mul_div_cancel_right₀ _ (zpow_pos two_pos _).ne'] at hnearest
  exact hnearest.unique (nearest_units hm)

/-- Trailing zeros move into the exponent. -/
theorem trimmedWithin_eq (fuel : Nat) (d : Decimal) : ∃ zeros : Nat,
    d.digits = (trimmedWithin fuel d).digits * 10 ^ zeros ∧ (trimmedWithin fuel d).exponent = d.exponent + zeros := by
  induction fuel generalizing d with
  | zero => exact ⟨0, by simp [trimmedWithin]⟩
  | succ fuel ih =>
    rw [trimmedWithin]
    split
    next htrailing =>
      obtain ⟨zeros, hdigits, hexponent⟩ := ih ⟨d.digits / 10, d.exponent + 1⟩
      refine ⟨zeros + 1, ?_, ?_⟩
      · rw [pow_succ, ← mul_assoc, ← hdigits]
        exact (Nat.div_mul_cancel (Nat.dvd_of_mod_eq_zero htrailing.2)).symm
      · rw [hexponent]
        push_cast
        ring
    next => exact ⟨0, by simp⟩

theorem value_trimmed (d : Decimal) : d.trimmed.value = d.value := by
  obtain ⟨zeros, hdigits, hexponent⟩ := trimmedWithin_eq d.digits.log2 d
  have hcast : (d.digits : ℚ) = d.trimmed.digits * 10 ^ zeros := by exact_mod_cast hdigits
  rw [value, value, hcast, trimmed, hexponent, zpow_add₀ (by norm_num), zpow_natCast]
  ring

end Decimal

/-! ## The bounds of the reader -/

/-- Numbers from `2 ^ 1024` on are nearest to infinity. -/
theorem Nearest.eq_infinityBits (h : Nearest q m) (hq : units infinityBits ≤ q) : m = infinityBits := by
  refine h.le.antisymm (not_lt.mp fun hlt => ?_)
  have hless : (units m : ℚ) < units infinityBits := by exact_mod_cast units_strictMono hlt
  have hnear := h.near infinityBits (le_refl _)
  rw [abs_of_nonpos (by linarith), abs_of_nonpos (by linarith)] at hnear
  linarith

/-- Numbers below half of the smallest double are nearest to zero. -/
theorem Nearest.eq_zero (h : Nearest q m) (hq : 0 ≤ q) (hhalf : q < 1 / 2) : m = 0 := by
  by_contra hne
  have hone : (1 : ℚ) ≤ units m := by exact_mod_cast Nat.succ_le_of_lt (units_strictMono (Nat.pos_of_ne_zero hne))
  have hnear := h.near 0 (Nat.zero_le _)
  rw [units_zero, Nat.cast_zero, zero_sub, abs_neg, abs_of_nonneg hq, abs_of_nonneg (by linarith)] at hnear
  linarith

/-- Three binary places are fewer than one decimal place. -/
theorem two_zpow_le (n : Nat) : (2 : ℚ) ^ (3 * n : Int) ≤ 10 ^ (n : Int) := by
  rw [zpow_mul, zpow_natCast, zpow_natCast]
  exact pow_le_pow_left₀ (by norm_num) (by norm_num) n

/-- Beyond the upper bound a decimal is infinite. -/
theorem magnitude_of_large (hdigits : d.digits ≠ 0) (hexponent : 400 < d.exponent) : d.magnitude = infinityBits := by
  refine d.nearest_magnitude.eq_infinityBits ?_
  have hone : (1 : ℚ) ≤ d.digits := by exact_mod_cast Nat.one_le_iff_ne_zero.mpr hdigits
  rw [le_div_iff₀ (zpow_pos two_pos _), units_infinityBits]
  calc (2 : ℚ) ^ (1024 : Int) ≤ 2 ^ (3 * (400 : Nat) : Int) := zpow_le_zpow_right₀ one_le_two (by decide)
    _ ≤ 10 ^ ((400 : Nat) : Int) := two_zpow_le 400
    _ ≤ 10 ^ d.exponent := zpow_le_zpow_right₀ (by norm_num) hexponent.le
    _ ≤ d.digits * 10 ^ d.exponent := le_mul_of_one_le_left (zpow_pos (by norm_num) _).le hone

/-- Beyond the lower bound a decimal is zero. -/
theorem magnitude_of_small (hdigits : d.digits ≠ 0) (hexponent : d.exponent + d.digits.log2 < -400) :
    d.magnitude = 0 := by
  obtain ⟨n, hn⟩ : ∃ n : Nat, d.exponent = -(n : Int) := ⟨(-d.exponent).toNat, by omega⟩
  have hvalue : d.value < 2 ^ (-1200 : Int) := by
    calc (d.digits : ℚ) * 10 ^ d.exponent
        ≤ d.digits * 2 ^ (-(3 * n : Int)) := by
          rw [hn, zpow_neg, zpow_neg]
          gcongr
          exact two_zpow_le n
      _ < 2 ^ ((d.digits.log2 : Int) + 1) * 2 ^ (-(3 * n : Int)) := by
          gcongr
          exact (log2_bounds (Nat.pos_of_ne_zero hdigits)).2
      _ = 2 ^ ((d.digits.log2 : Int) + 1 - 3 * n) := by rw [← zpow_add₀ two_ne_zero, ← sub_eq_add_neg]
      _ ≤ 2 ^ (-1200 : Int) := zpow_le_zpow_right₀ one_le_two (by omega)
  have hnonneg : 0 ≤ d.value := by
    unfold Decimal.value
    positivity
  refine d.nearest_magnitude.eq_zero (div_nonneg hnonneg (zpow_pos two_pos _).le) ?_
  rw [div_lt_iff₀ (zpow_pos two_pos _)]
  calc d.value < 2 ^ (-1200 : Int) := hvalue
    _ ≤ 2 ^ (-1 + minExponent) := zpow_le_zpow_right₀ one_le_two (by decide)
    _ = 1 / 2 * 2 ^ minExponent := by rw [zpow_add₀ two_ne_zero, zpow_neg_one, one_div]

/-- **The bounds of the reader change nothing:** a decimal is read as the nearest double. -/
theorem ofDecimal_eq (negative : Bool) (digits : Nat) (exponent : Int) :
    ofDecimal negative digits exponent = ofMagnitude negative (Decimal.magnitude ⟨digits, exponent⟩) := by
  unfold ofDecimal
  split
  next hzero =>
    have hvalue : Decimal.value ⟨digits, exponent⟩ = units 0 * 2 ^ minExponent := by simp [Decimal.value, hzero]
    rw [Decimal.magnitude_of_value hvalue (Nat.zero_le _)]
  next hdigits =>
    split
    next hlarge =>
      rw [magnitude_of_large hdigits hlarge, infinity]
    next =>
      split
      next hsmall => rw [magnitude_of_small hdigits hsmall]
      next => rfl

/-! ## The shortest digits -/

theorem magnitude_of_hitOnGrid {num den magnitude : Nat} (h : hitOnGrid num den magnitude exponent = some d) :
    d.magnitude = magnitude := by
  unfold hitOnGrid at h
  dsimp only at h
  split at h
  next hlower hupper =>
    split at h <;> cases h
    · exact eq_of_beq hlower
    · exact eq_of_beq hupper
  next hlower _ =>
    cases h
    exact eq_of_beq hlower
  next _ hupper =>
    cases h
    exact eq_of_beq hupper
  next => cases h

theorem magnitude_of_firstHit {num den magnitude fuel : Nat} (h : firstHit num den magnitude fuel exponent = some d) :
    d.magnitude = magnitude := by
  induction fuel generalizing exponent with
  | zero => cases h
  | succ fuel ih =>
    rw [firstHit] at h
    split at h
    next hhit =>
      cases h
      exact magnitude_of_hitOnGrid hhit
    next => exact ih h

theorem magnitude_of_shortestHit {num den magnitude : Nat} (h : shortestHit num den magnitude exponent = some d) :
    d.magnitude = magnitude := by
  unfold shortestHit at h
  split at h
  · exact magnitude_of_firstHit h
  · exact magnitude_of_firstHit h

theorem value_exactDecimal (mantissa : Nat) (exponent : Int) :
    (exactDecimal mantissa exponent).value = mantissa * 2 ^ exponent := by
  have hpow (b n : Nat) : Nat.pow b n = b ^ n := rfl
  unfold exactDecimal Decimal.value
  simp only [hpow]
  split
  next hle =>
    obtain ⟨n, rfl⟩ := Int.eq_ofNat_of_zero_le hle
    simp
  next hlt =>
    obtain ⟨n, rfl⟩ : ∃ n : Nat, exponent = -(n : Int) := ⟨(-exponent).toNat, by omega⟩
    have hten : (10 : ℚ) ^ n = 2 ^ n * 5 ^ n := by rw [← mul_pow]; norm_num
    simp only [neg_neg, Int.toNat_natCast, Nat.cast_mul, Nat.cast_pow, Nat.cast_ofNat, zpow_neg, zpow_natCast, hten]
    field_simp

/-- **The shortest digits of a double read back as that double.** -/
theorem magnitude_shortest (h : (mantissa : ℚ) * 2 ^ exponent = units m * 2 ^ minExponent) (hm : m ≤ infinityBits) :
    (shortest mantissa exponent).magnitude = m := by
  obtain ⟨hden, hnum⟩ := scaleDown_eq mantissa exponent
  unfold shortest
  dsimp only
  generalize (scaleDown mantissa 1 (-exponent)).1 = num at hnum ⊢
  generalize (scaleDown mantissa 1 (-exponent)).2 = den at hden hnum ⊢
  have hcast : (den : ℚ) ≠ 0 := Nat.cast_ne_zero.mpr (Nat.ne_of_gt hden)
  split
  next hwhole =>
    have hvalue : (mantissa : ℚ) * 2 ^ exponent = (num / den : Nat) :=
      (natCast_of_fraction hden hnum _).mpr ⟨hwhole.1, rfl⟩
    refine Decimal.magnitude_of_value ?_ hm
    rw [Decimal.value_trimmed, ← h, hvalue, Decimal.value]
    simp
  next =>
    rw [Decimal.magnitude_congr (Decimal.value_trimmed _)]
    cases hhit : shortestHit num den (nearestMagnitude num den) (decimalExponent num den) with
    | none =>
      refine Decimal.magnitude_of_value ?_ hm
      rw [Option.getD_none, value_exactDecimal, h]
    | some d =>
      rw [Option.getD_some, magnitude_of_shortestHit hhit]
      refine nearestMagnitude_of_units hden hm ?_
      rw [hnum, mul_div_cancel_right₀ _ hcast, h]

end ScriptCore.Numeric

import ScriptCore.Proofs.Numeric.Bits
import ScriptCore.Proofs.Numeric.Whole

/-!
# Rounding to the nearest double

Every magnitude is a whole number of units, the smallest positive double (`Numeric.units`), and the units grow
with the magnitude. A fraction is rounded to the magnitude nearest to it, of two equally near ones the even
one, where infinity counts as `2 ^ 1024` (`Numeric.nearest_nearestMagnitude`); so the double of a fraction is
the nearest of all finite doubles whenever it is finite itself (`Numeric.isNearest_ofRatio`).
-/
namespace ScriptCore.Numeric

variable {m m' n k num den : Nat} {q : ℚ}

/-! ## Units -/

/-- The number of units in a magnitude. -/
def units (m : Nat) : Nat := if m < 2 ^ 52 then m else (2 ^ 52 + m % 2 ^ 52) * 2 ^ (m / 2 ^ 52 - 1)

@[simp] theorem units_zero : units 0 = 0 := rfl

/-- A mantissa of full length, or one at the least exponent, is placed by its exponent. A mantissa of
`2 ^ 53` carries into the next exponent. -/
theorem units_add (hle : n ≤ 2 ^ 53) (hfull : k = 0 ∨ 2 ^ 52 ≤ n) : units (k * 2 ^ 52 + n) = n * 2 ^ k := by
  unfold units
  split
  next hsmall =>
    obtain rfl : k = 0 := by omega
    omega
  next hlarge =>
    obtain hcarry | hlt : n = 2 ^ 53 ∨ n < 2 ^ 53 := by omega
    · have hdiv : (k * 2 ^ 52 + n) / 2 ^ 52 = k + 2 := by omega
      have hmod : (k * 2 ^ 52 + n) % 2 ^ 52 = 0 := by omega
      rw [hdiv, hmod, hcarry, show k + 2 - 1 = k + 1 by omega, pow_succ]
      omega
    · have hdiv : (k * 2 ^ 52 + n) / 2 ^ 52 = k + 1 := by omega
      have hmod : 2 ^ 52 + (k * 2 ^ 52 + n) % 2 ^ 52 = n := by omega
      rw [hdiv, hmod, Nat.add_sub_cancel]

/-- Every magnitude has a mantissa and an exponent. -/
theorem exists_mantissa (m : Nat) : ∃ k n, m = k * 2 ^ 52 + n ∧ n < 2 ^ 53 ∧ (k = 0 ∨ 2 ^ 52 ≤ n) := by
  obtain hsmall | hlarge := Nat.lt_or_ge m (2 ^ 52)
  · exact ⟨0, m, by omega, by omega, Or.inl rfl⟩
  · exact ⟨m / 2 ^ 52 - 1, 2 ^ 52 + m % 2 ^ 52, by omega, by omega, Or.inr (by omega)⟩

theorem units_strictMono : StrictMono units := by
  refine strictMono_nat_of_lt_succ fun m => ?_
  obtain ⟨k, n, rfl, hlt, hfull⟩ := exists_mantissa m
  rw [Nat.add_assoc, units_add (by omega) hfull, units_add (by omega) (by omega)]
  exact Nat.mul_lt_mul_of_pos_right (Nat.lt_succ_self n) (Nat.two_pow_pos k)

/-- On the grid of `2 ^ k` units lie all magnitudes but those below `2 ^ 52` steps of it. -/
theorem units_on_grid (k m : Nat) : (∃ j, units m = j * 2 ^ k) ∨ 0 < k ∧ units m < 2 ^ 52 * 2 ^ k := by
  obtain ⟨i, n, rfl, hlt, hfull⟩ := exists_mantissa m
  rw [units_add (by omega) hfull]
  obtain hless | hle := Nat.lt_or_ge i k
  · refine Or.inr ⟨by omega, ?_⟩
    calc n * 2 ^ i < 2 ^ 53 * 2 ^ i := Nat.mul_lt_mul_of_pos_right hlt (Nat.two_pow_pos i)
      _ = 2 ^ 52 * 2 ^ (i + 1) := by ring
      _ ≤ 2 ^ 52 * 2 ^ k := Nat.mul_le_mul_left _ (Nat.pow_le_pow_right two_pos hless)
  · obtain ⟨d, rfl⟩ := Nat.exists_eq_add_of_le hle
    exact Or.inl ⟨n * 2 ^ d, by ring⟩

/-! ## Rounding to an integer -/

/-- The integer nearest to a number, the even one of two. -/
structure Rounds (q : ℚ) (n : Nat) : Prop where
  near : |(n : ℚ) - q| ≤ 1 / 2
  even : |(n : ℚ) - q| = 1 / 2 → n % 2 = 0

theorem Rounds.nearest (h : Rounds q n) (j : Nat) :
    |(n : ℚ) - q| ≤ |(j : ℚ) - q| ∧ (|(n : ℚ) - q| = |(j : ℚ) - q| → j ≠ n → n % 2 = 0) := by
  by_cases hj : j = n
  · subst hj
    exact ⟨le_refl _, fun _ hne => absurd rfl hne⟩
  · have hapart : (1 : ℚ) ≤ |(j : ℚ) - n| := by
      have hint : (1 : ℤ) ≤ |(j : ℤ) - n| := Int.one_le_abs (by omega)
      exact_mod_cast hint
    have htriangle : |(j : ℚ) - n| ≤ |(j : ℚ) - q| + |(n : ℚ) - q| := by
      rw [abs_sub_comm (n : ℚ) q]
      exact abs_sub_le _ _ _
    have hnear := h.near
    refine ⟨by linarith, fun heq _ => h.even ?_⟩
    linarith

theorem Rounds.of_lt (h : |(n : ℚ) - q| < 1 / 2) : Rounds q n := ⟨h.le, fun heq => absurd heq h.ne⟩

theorem Rounds.le (h : Rounds q n) {j : Nat} (hq : q < j) : n ≤ j := by
  by_contra hlt
  have hcast : (j : ℚ) + 1 ≤ n := by exact_mod_cast not_le.mp hlt
  have hnear := (abs_le.mp h.near).2
  linarith

theorem Rounds.ge (h : Rounds q n) {j : Nat} (hq : j ≤ q) : j ≤ n := by
  by_contra hlt
  have hcast : (n : ℚ) + 1 ≤ j := by exact_mod_cast not_le.mp hlt
  have hnear := (abs_le.mp h.near).1
  linarith

theorem rounds_roundedQuotient (num : Nat) (hden : 0 < den) : Rounds ((num : ℚ) / den) (roundedQuotient num den) := by
  have hpos : (0 : ℚ) < den := Nat.cast_pos.mpr hden
  obtain ⟨t, ht⟩ : ∃ t : ℚ, t = ((num % den : Nat) : ℚ) / den := ⟨_, rfl⟩
  have hrest : t * den = (num % den : Nat) := by rw [ht, div_mul_cancel₀ _ hpos.ne']
  have hnonneg : 0 ≤ t := ht ▸ div_nonneg (Nat.cast_nonneg _) hpos.le
  have hone : t < 1 := by
    rw [ht, div_lt_one hpos]
    exact_mod_cast Nat.mod_lt num hden
  have hsplit : (num : ℚ) / den = (num / den : Nat) + t := by
    rw [div_eq_iff hpos.ne', add_mul, hrest, mul_comm]
    exact_mod_cast (Nat.div_add_mod num den).symm
  -- twice the remainder against the divisor is twice `t` against one
  have hdouble : ((2 * (num % den) : Nat) : ℚ) = 2 * t * den := by
    rw [Nat.cast_mul, ← hrest]
    push_cast
    ring
  rw [hsplit]
  unfold roundedQuotient
  dsimp only
  split
  next hless =>
    have hlt : 2 * t * den < 1 * den := by rw [← hdouble, one_mul]; exact_mod_cast hless
    have hhalf : t < 1 / 2 := by linarith [lt_of_mul_lt_mul_right hlt hpos.le]
    refine .of_lt ?_
    rw [abs_lt]
    constructor <;> linarith
  next hle =>
    split
    next hmore =>
      have hlt : 1 * den < 2 * t * den := by rw [← hdouble, one_mul]; exact_mod_cast hmore
      have hhalf : 1 / 2 < t := by linarith [lt_of_mul_lt_mul_right hlt hpos.le]
      refine .of_lt ?_
      push_cast
      rw [abs_lt]
      constructor <;> linarith
    next hge =>
      have heq : 2 * (num % den) = den := by omega
      have htie : t = 1 / 2 := by
        have hcast : 2 * t * den = 1 * den := by rw [← hdouble, heq, one_mul]
        linarith [mul_right_cancel₀ hpos.ne' hcast]
      obtain heven | hodd := Nat.mod_two_eq_zero_or_one (num / den)
      · refine ⟨?_, fun _ => by omega⟩
        rw [heven, htie, abs_le]
        push_cast
        constructor <;> linarith
      · refine ⟨?_, fun _ => by omega⟩
        rw [hodd, htie, abs_le]
        push_cast
        constructor <;> linarith

/-! ## The exponent of a fraction -/

theorem scaleDown_ratio (num : Nat) (hden : 0 < den) (e : Int) : 0 < (scaleDown num den e).2 ∧
    ((scaleDown num den e).1 : ℚ) / (scaleDown num den e).2 = (num : ℚ) / den / (2 : ℚ) ^ e := by
  have hpos : (0 : ℚ) < den := Nat.cast_pos.mpr hden
  have hpow (n : Nat) : Nat.pow 2 n = 2 ^ n := rfl
  obtain ⟨n, rfl | rfl⟩ := e.eq_nat_or_neg
  · simp only [scaleDown, if_pos (Int.natCast_nonneg n), Int.toNat_natCast, hpow]
    refine ⟨Nat.mul_pos hden (Nat.two_pow_pos n), ?_⟩
    push_cast
    rw [zpow_natCast, div_div]
  · obtain rfl | hn := Nat.eq_zero_or_pos n
    · simpa [scaleDown] using hden
    · simp only [scaleDown, if_neg (show ¬(0 : Int) ≤ -n by omega), neg_neg, Int.toNat_natCast, hpow]
      refine ⟨hden, ?_⟩
      push_cast
      rw [zpow_neg, zpow_natCast, div_inv_eq_mul, div_mul_eq_mul_div]

/-- A positive number lies between the power of two of its logarithm and the next. -/
theorem log2_bounds (hn : 0 < n) : (2 : ℚ) ^ (n.log2 : Int) ≤ n ∧ (n : ℚ) < 2 ^ ((n.log2 : Int) + 1) := by
  have hle : 2 ^ n.log2 ≤ n := Nat.log2_self_le (Nat.ne_of_gt hn)
  have hlt : n < 2 ^ (n.log2 + 1) := Nat.lt_log2_self
  constructor
  · rw [zpow_natCast]
    exact_mod_cast hle
  · rw [show (n.log2 : Int) + 1 = ((n.log2 + 1 : Nat) : Int) by push_cast; rfl, zpow_natCast]
    exact_mod_cast hlt

/-- The logarithms give the exponent of a fraction up to one. -/
theorem estimate_bounds (hnum : 0 < num) (hden : 0 < den) :
    2 ^ 52 * (2 : ℚ) ^ ((num.log2 : Int) - den.log2 - 53) ≤ (num : ℚ) / den ∧
      (num : ℚ) / den < 2 ^ 54 * (2 : ℚ) ^ ((num.log2 : Int) - den.log2 - 53) := by
  have hpos : (0 : ℚ) < den := Nat.cast_pos.mpr hden
  obtain ⟨hnumLow, hnumHigh⟩ := log2_bounds hnum
  obtain ⟨hdenLow, hdenHigh⟩ := log2_bounds hden
  have hscale (e : Int) (n : Nat) : (2 : ℚ) ^ n * 2 ^ e = 2 ^ (n + e) := by
    rw [zpow_add₀ two_ne_zero, zpow_natCast]
  rw [hscale, hscale]
  constructor
  · rw [le_div_iff₀ hpos]
    calc (2 : ℚ) ^ (((52 : Nat) : Int) + (num.log2 - den.log2 - 53)) * den
        ≤ 2 ^ (((52 : Nat) : Int) + (num.log2 - den.log2 - 53)) * 2 ^ ((den.log2 : Int) + 1) := by gcongr
      _ = 2 ^ (num.log2 : Int) := by
        rw [← zpow_add₀ two_ne_zero]
        congr 1
        omega
      _ ≤ num := hnumLow
  · rw [div_lt_iff₀ hpos]
    calc (num : ℚ) < 2 ^ ((num.log2 : Int) + 1) := hnumHigh
      _ = (2 : ℚ) ^ (((54 : Nat) : Int) + (num.log2 - den.log2 - 53)) * 2 ^ (den.log2 : Int) := by
        rw [← zpow_add₀ two_ne_zero]
        congr 1
        omega
      _ ≤ 2 ^ (((54 : Nat) : Int) + (num.log2 - den.log2 - 53)) * den := by gcongr

/-- At the exponent of a fraction its mantissa has 53 bits, or fewer if the exponent is the least. -/
theorem exponentOf_bounds (hnum : 0 < num) (hden : 0 < den) : minExponent ≤ exponentOf num den ∧
    (num : ℚ) / den < 2 ^ 53 * (2 : ℚ) ^ exponentOf num den ∧
    (exponentOf num den = minExponent ∨ 2 ^ 52 * (2 : ℚ) ^ exponentOf num den ≤ (num : ℚ) / den) := by
  obtain ⟨hlow, hhigh⟩ := estimate_bounds hnum hden
  unfold exponentOf
  dsimp only
  generalize (num.log2 : Int) - den.log2 - 53 = estimate at hlow hhigh ⊢
  obtain ⟨hpos, hratio⟩ := scaleDown_ratio num hden estimate
  have hcast : (0 : ℚ) < (scaleDown num den estimate).2 := Nat.cast_pos.mpr hpos
  have htest : (scaleDown num den estimate).1 < Nat.pow 2 53 * (scaleDown num den estimate).2 ↔
      (num : ℚ) / den < 2 ^ 53 * (2 : ℚ) ^ estimate := by
    rw [← div_lt_iff₀ (zpow_pos two_pos estimate), ← hratio, div_lt_iff₀ hcast]
    exact_mod_cast Iff.rfl
  -- the estimate is corrected to the exponent of 53 bits
  obtain ⟨exponent, heq, hle, hlt⟩ : ∃ e : Int,
      (if (scaleDown num den estimate).1 < Nat.pow 2 53 * (scaleDown num den estimate).2 then estimate
        else estimate + 1) = e ∧
      2 ^ 52 * (2 : ℚ) ^ e ≤ (num : ℚ) / den ∧ (num : ℚ) / den < 2 ^ 53 * (2 : ℚ) ^ e := by
    split
    next h => exact ⟨_, rfl, hlow, htest.mp h⟩
    next h =>
      have hge := not_lt.mp (mt htest.mpr h)
      refine ⟨_, rfl, ?_, ?_⟩
      · rw [zpow_add_one₀ two_ne_zero]
        linarith
      · rw [zpow_add_one₀ two_ne_zero]
        linarith
  rw [heq]
  refine ⟨le_max_right _ _, ?_, ?_⟩
  · calc (num : ℚ) / den < 2 ^ 53 * 2 ^ exponent := hlt
      _ ≤ 2 ^ 53 * 2 ^ max exponent minExponent := by
        gcongr
        · exact one_le_two
        · exact le_max_left _ _
  · obtain hmin | hmax := le_total exponent minExponent
    · exact Or.inl (max_eq_right hmin)
    · rw [max_eq_left hmax]
      exact Or.inr hle

/-! ## Rounding to a magnitude -/

/-- The number of units in a fraction. -/
def unitsOf (num den : Nat) : ℚ := (num : ℚ) / den / (2 : ℚ) ^ minExponent

theorem unitsOf_nonneg (num den : Nat) : 0 ≤ unitsOf num den := by
  unfold unitsOf
  positivity

/-- A magnitude is nearest to a number of units, of two equally near ones the even one; infinity counts as
`2 ^ 1024`. -/
structure Nearest (q : ℚ) (m : Nat) : Prop where
  le : m ≤ infinityBits
  near : ∀ m' ≤ infinityBits, |(units m : ℚ) - q| ≤ |(units m' : ℚ) - q|
  even : ∀ m' ≤ infinityBits, |(units m : ℚ) - q| = |(units m' : ℚ) - q| → m' ≠ m → m % 2 = 0

/-- The rounded mantissa gives the nearest of all magnitudes, as if the exponents went on. -/
theorem nearest_unbounded (hlow : k = 0 ∨ 2 ^ 52 * 2 ^ k ≤ q) (hround : Rounds (q / 2 ^ k) n)
    (hle : n ≤ 2 ^ 53) (hfull : k = 0 ∨ 2 ^ 52 ≤ n) (m' : Nat) :
    |(units (k * 2 ^ 52 + n) : ℚ) - q| ≤ |(units m' : ℚ) - q| ∧
      (|(units (k * 2 ^ 52 + n) : ℚ) - q| = |(units m' : ℚ) - q| → m' ≠ k * 2 ^ 52 + n →
        (k * 2 ^ 52 + n) % 2 = 0) := by
  have hpow : (0 : ℚ) < 2 ^ k := pow_pos two_pos k
  have hgrid (j : Nat) : |((j * 2 ^ k : Nat) : ℚ) - q| = |(j : ℚ) - q / 2 ^ k| * 2 ^ k := by
    rw [← abs_of_pos hpow, ← abs_mul, abs_of_pos hpow, sub_mul, div_mul_cancel₀ _ hpow.ne']
    push_cast
    rfl
  rw [units_add hle hfull, hgrid]
  obtain ⟨j, hj⟩ | ⟨hk, hbelow⟩ := units_on_grid k m'
  · obtain ⟨hnear, heven⟩ := hround.nearest j
    rw [hj, hgrid]
    refine ⟨by gcongr, fun heq hne => ?_⟩
    have hjn : j ≠ n := by
      rintro rfl
      refine hne (units_strictMono.injective ?_)
      rw [hj, units_add hle hfull]
    have := heven (mul_right_cancel₀ hpow.ne' heq) hjn
    omega
  · -- below the grid nothing is as near as its first point, which is not above the number
    have hfirst : (2 : ℚ) ^ 52 * 2 ^ k ≤ q := hlow.resolve_left (by omega)
    have hless : (units m' : ℚ) < 2 ^ 52 * 2 ^ k := by exact_mod_cast hbelow
    have hfar : |((2 ^ 52 : Nat) : ℚ) - q / 2 ^ k| * 2 ^ k < |(units m' : ℚ) - q| := by
      rw [← hgrid, abs_of_nonpos (by push_cast; linarith), abs_of_neg (by linarith)]
      push_cast
      linarith
    have hless : |(n : ℚ) - q / 2 ^ k| * 2 ^ k < |(units m' : ℚ) - q| :=
      lt_of_le_of_lt (mul_le_mul_of_nonneg_right (hround.nearest _).1 hpow.le) hfar
    exact ⟨hless.le, fun heq _ => absurd heq hless.ne⟩

/-- Cut off at infinity, the nearest of all magnitudes is the nearest up to infinity. -/
theorem Nearest.of_unbounded (hnear : ∀ m', |(units m : ℚ) - q| ≤ |(units m' : ℚ) - q|)
    (heven : ∀ m', |(units m : ℚ) - q| = |(units m' : ℚ) - q| → m' ≠ m → m % 2 = 0) :
    Nearest q (min infinityBits m) := by
  obtain hle | hlt := Nat.le_or_ge m infinityBits
  · rw [Nat.min_eq_right hle]
    exact ⟨hle, fun m' _ => hnear m', fun m' _ => heven m'⟩
  · rw [Nat.min_eq_left hlt]
    obtain rfl | hlt := Nat.eq_or_lt_of_le hlt
    · exact ⟨le_refl _, fun m' _ => hnear m', fun m' _ => heven m'⟩
    have hunits : (units infinityBits : ℚ) < units m := by exact_mod_cast units_strictMono hlt
    -- a magnitude above infinity is nearest only to numbers above infinity
    have hbig : (units infinityBits : ℚ) < q := by
      by_contra hq
      have hq := not_lt.mp hq
      have hcontra := hnear infinityBits
      rw [abs_of_nonneg (by linarith), abs_of_nonneg (by linarith)] at hcontra
      linarith
    have hbelow {m' : Nat} (h : m' ≤ infinityBits) : (units m' : ℚ) ≤ units infinityBits := by
      exact_mod_cast units_strictMono.monotone h
    refine ⟨le_refl _, fun m' h => ?_, fun m' h heq hne => ?_⟩
    · have := hbelow h
      rw [abs_of_nonpos (by linarith), abs_of_nonpos (by linarith)]
      linarith
    · have hlt : (units m' : ℚ) < units infinityBits := by
        exact_mod_cast units_strictMono (Nat.lt_of_le_of_ne h hne)
      rw [abs_of_nonpos (by linarith), abs_of_nonpos (by linarith)] at heq
      linarith

/-- **A fraction is rounded to the nearest magnitude.** -/
theorem nearest_nearestMagnitude (num : Nat) (hden : 0 < den) :
    Nearest (unitsOf num den) (nearestMagnitude num den) := by
  unfold nearestMagnitude
  obtain rfl | hnum := Nat.eq_zero_or_pos num
  · have hzero : unitsOf 0 den = 0 := by simp [unitsOf]
    rw [if_pos rfl, hzero]
    refine ⟨Nat.zero_le _, fun m' _ => ?_, fun _ _ _ _ => rfl⟩
    simp
  rw [if_neg (Nat.ne_of_gt hnum)]
  dsimp only
  obtain ⟨hleast, hhigh, hlow⟩ := exponentOf_bounds hnum hden
  obtain ⟨k, hk⟩ := Int.eq_ofNat_of_zero_le (Int.sub_nonneg.mpr hleast)
  obtain hexponent : exponentOf num den = minExponent + k := by omega
  obtain ⟨hpos, hratio⟩ := scaleDown_ratio num hden (exponentOf num den)
  have hpow : (0 : ℚ) < 2 ^ k := pow_pos two_pos k
  have hmin : (0 : ℚ) < 2 ^ minExponent := zpow_pos two_pos _
  have hsplit : (2 : ℚ) ^ exponentOf num den = 2 ^ minExponent * 2 ^ k := by
    rw [hexponent, zpow_add₀ two_ne_zero, zpow_natCast]
  have hround : Rounds (unitsOf num den / 2 ^ k)
      (roundedQuotient (scaleDown num den (exponentOf num den)).1 (scaleDown num den (exponentOf num den)).2) := by
    have := rounds_roundedQuotient (scaleDown num den (exponentOf num den)).1 hpos
    rwa [hratio, hsplit, ← div_div] at this
  have hlow' : k = 0 ∨ 2 ^ 52 * 2 ^ k ≤ unitsOf num den := by
    obtain heq | hle := hlow
    · exact Or.inl (by omega)
    · refine Or.inr ?_
      rw [unitsOf, le_div_iff₀ hmin]
      calc (2 : ℚ) ^ 52 * 2 ^ k * 2 ^ minExponent = 2 ^ 52 * 2 ^ exponentOf num den := by rw [hsplit]; ring
        _ ≤ (num : ℚ) / den := hle
  have hhigh' : unitsOf num den / 2 ^ k < 2 ^ 53 := by
    rw [unitsOf, div_div, ← hsplit, div_lt_iff₀ (zpow_pos two_pos _)]
    exact hhigh
  have hdistance : (exponentOf num den - minExponent).toNat = k := by omega
  rw [hdistance]
  generalize roundedQuotient (scaleDown num den (exponentOf num den)).1
    (scaleDown num den (exponentOf num den)).2 = n at hround ⊢
  have hle : n ≤ 2 ^ 53 := hround.le (by exact_mod_cast hhigh')
  have hfull : k = 0 ∨ 2 ^ 52 ≤ n :=
    hlow'.imp_right fun hle => hround.ge (by rw [le_div_iff₀ hpow]; exact_mod_cast hle)
  exact .of_unbounded (fun m' => (nearest_unbounded hlow' hround hle hfull m').1)
    fun m' => (nearest_unbounded hlow' hround hle hfull m').2

/-! ## Rounding to a double -/

variable {negative : Bool} {x y : Float} {u v : ℚ}

/-- The factor of a sign. -/
def signOf (negative : Bool) : ℚ := if negative then -1 else 1

/-- A magnitude below infinity is a mantissa and an exponent. -/
theorem partsOfBits_of_lt (negative : Bool) (h : m < infinityBits) :
    ∃ mantissa exponent, partsOfBits negative m = .finite negative mantissa exponent ∧
      (mantissa : ℚ) * 2 ^ exponent = units m * 2 ^ minExponent ∧ mantissa % 2 = m % 2 := by
  have hm : m < 0x7FF * 2 ^ 52 := h
  have hpow : Nat.pow 2 52 = 2 ^ 52 := rfl
  unfold partsOfBits units
  simp only [hpow]
  rw [if_neg (by omega)]
  obtain hsmall | hlarge := Nat.lt_or_ge m (2 ^ 52)
  · rw [if_pos (Nat.div_eq_of_lt hsmall), if_pos hsmall, Nat.mod_eq_of_lt hsmall]
    exact ⟨_, _, rfl, rfl, rfl⟩
  · rw [if_neg (by omega), if_neg (by omega)]
    refine ⟨_, _, rfl, ?_, by omega⟩
    rw [zpow_add₀ two_ne_zero, zpow_natCast]
    push_cast
    ring

theorem rational?_of_parts {mantissa : Nat} {exponent : Int} (h : parts x = .finite negative mantissa exponent) :
    rational? x = some (signOf negative * (mantissa * 2 ^ exponent)) := by
  rw [rational?, h, signOf]

theorem not_finite_of_le {negative' : Bool} {mantissa : Nat} {exponent : Int} (h : infinityBits ≤ m) :
    partsOfBits negative m ≠ .finite negative' mantissa exponent := by
  have hbiased : 0x7FF ≤ m / Nat.pow 2 52 := (Nat.le_div_iff_mul_le (by decide)).mpr h
  unfold partsOfBits
  rw [if_pos hbiased]
  split <;> simp

/-- Every finite double has a sign and a magnitude below infinity. -/
theorem exists_magnitude (h : rational? y = some u) :
    ∃ negative m, m < infinityBits ∧ u = signOf negative * (units m * 2 ^ minExponent) := by
  obtain ⟨negative, m, hparts⟩ : ∃ negative m, parts y = partsOfBits negative m := ⟨_, _, rfl⟩
  have hlt : m < infinityBits := by
    by_contra hge
    rw [rational?, hparts] at h
    split at h
    next heq => exact not_finite_of_le (not_lt.mp hge) heq
    · cases h
  obtain ⟨mantissa, exponent, hfinite, hvalue, -⟩ := partsOfBits_of_lt negative hlt
  rw [rational?_of_parts (hparts.trans hfinite), hvalue] at h
  exact ⟨negative, m, hlt, (Option.some.inj h).symm⟩

/-- A finite double is nearest to a number: no finite double is nearer, and if another is as near, the mantissa
is even. -/
def IsNearest (q : ℚ) (x : Float) : Prop :=
  ∃ negative mantissa exponent v, parts x = .finite negative mantissa exponent ∧ rational? x = some v ∧
    ∀ y u, rational? y = some u → |v - q| ≤ |u - q| ∧ (|v - q| = |u - q| → u ≠ v → mantissa % 2 = 0)

/-- The nearest magnitude is nearest to a positive number of units among both signs. -/
theorem Nearest.signed (h : Nearest q m) (hq : 0 ≤ q) (negative negative' : Bool) {m' : Nat}
    (hle : m' ≤ infinityBits) :
    |signOf negative * units m - signOf negative * q| ≤ |signOf negative' * units m' - signOf negative * q| ∧
      (|signOf negative * units m - signOf negative * q| = |signOf negative' * units m' - signOf negative * q| →
        signOf negative' * (units m' : ℚ) ≠ signOf negative * units m → m % 2 = 0) := by
  have hnonneg : (0 : ℚ) ≤ units m' := Nat.cast_nonneg _
  have hzero : |(units 0 : ℚ) - q| = q := by simp [abs_of_nonneg hq]
  have hnearer : |(units m : ℚ) - q| ≤ q := (h.near 0 (Nat.zero_le _)).trans_eq hzero
  have hmirror (a b : ℚ) : |-a - -b| = |a - b| := by rw [← abs_neg, neg_sub_neg, neg_sub]
  have hsame : |(units m : ℚ) - q| ≤ |(units m' : ℚ) - q| ∧
      (|(units m : ℚ) - q| = |(units m' : ℚ) - q| → (units m' : ℚ) ≠ units m → m % 2 = 0) :=
    ⟨h.near m' hle, fun heq hne => h.even m' hle heq fun hm => hne (by rw [hm])⟩
  -- across zero a magnitude is no nearer than zero itself
  have hacross : |(units m : ℚ) - q| ≤ |(units m' : ℚ) + q| ∧
      (|(units m : ℚ) - q| = |(units m' : ℚ) + q| → -(units m' : ℚ) ≠ units m → m % 2 = 0) := by
    rw [abs_of_nonneg (add_nonneg hnonneg hq)]
    refine ⟨by linarith, fun heq hne => h.even 0 (Nat.zero_le _) (by linarith) ?_⟩
    rintro rfl
    rw [hzero] at heq
    have hunits : (units m' : ℚ) = 0 := by linarith
    exact hne (by simp [hunits])
  cases negative <;> cases negative' <;>
    simp only [signOf, Bool.false_eq_true, if_false, if_true, one_mul, neg_one_mul]
  case false.false => exact hsame
  case false.true => rwa [← neg_add', abs_neg]
  case true.false =>
    rw [hmirror, sub_neg_eq_add]
    exact ⟨hacross.1, fun heq hne => hacross.2 heq fun h => hne (by linarith)⟩
  case true.true =>
    rw [hmirror, hmirror]
    exact ⟨hsame.1, fun heq hne => hsame.2 heq fun h => hne (by rw [h])⟩

/-- **The double of a fraction is the nearest one,** if it is finite. -/
theorem isNearest_ofRatio (hden : 0 < den) (hfinite : nearestMagnitude num den < infinityBits) :
    IsNearest (signOf negative * ((num : ℚ) / den)) (ofRatio negative num den) := by
  have hmin : (0 : ℚ) < 2 ^ minExponent := zpow_pos two_pos _
  have hnearest := nearest_nearestMagnitude num hden
  have hunits : (num : ℚ) / den = unitsOf num den * 2 ^ minExponent := by
    rw [unitsOf, div_mul_cancel₀ _ hmin.ne']
  have hq := unitsOf_nonneg num den
  obtain ⟨mantissa, exponent, hparts, hvalue, hparity⟩ := partsOfBits_of_lt negative hfinite
  have hparts : parts (ofRatio negative num den) = .finite negative mantissa exponent :=
    (parts_ofMagnitude hfinite.le).trans hparts
  refine ⟨_, _, _, _, hparts, rational?_of_parts hparts, fun y u hy => ?_⟩
  obtain ⟨negative', m', hm', rfl⟩ := exists_magnitude hy
  have hscaled (sign : Bool) (a : ℚ) : signOf sign * (a * 2 ^ minExponent) - signOf negative * ((num : ℚ) / den) =
      (signOf sign * a - signOf negative * unitsOf num den) * 2 ^ minExponent := by
    rw [hunits]
    ring
  rw [hvalue, hscaled, hscaled, abs_mul, abs_mul, hparity]
  obtain ⟨hnear, heven⟩ := hnearest.signed hq negative negative' hm'.le
  refine ⟨mul_le_mul_of_nonneg_right hnear (abs_nonneg _), fun heq hne => heven ?_ ?_⟩
  · exact mul_right_cancel₀ (abs_pos.mpr hmin.ne').ne' heq
  · rintro heq
    exact hne (by rw [← mul_assoc, ← mul_assoc, heq])

/-- Infinity stands where `2 ^ 1024` would. -/
theorem units_infinityBits : (units infinityBits : ℚ) * 2 ^ minExponent = 2 ^ (1024 : Int) := by
  have hbits : infinityBits = 2046 * 2 ^ 52 + 2 ^ 52 := rfl
  have hexponent : ((52 : Nat) : Int) + (2046 : Nat) + minExponent = 1024 := rfl
  rw [hbits, units_add (by omega) (Or.inr (le_refl _)), Nat.cast_mul, Nat.cast_pow, Nat.cast_pow, Nat.cast_ofNat,
    ← zpow_natCast, ← zpow_natCast, ← zpow_add₀ two_ne_zero, ← zpow_add₀ two_ne_zero, hexponent]

/-- Fractions below half of `2 ^ 1024` have finite doubles. -/
theorem nearestMagnitude_lt (hden : 0 < den) (h : 2 * ((num : ℚ) / den) < 2 ^ (1024 : Int)) :
    nearestMagnitude num den < infinityBits := by
  have hmin : (0 : ℚ) < 2 ^ minExponent := zpow_pos two_pos _
  have hq := unitsOf_nonneg num den
  have hunits : unitsOf num den * 2 ^ minExponent = (num : ℚ) / den := div_mul_cancel₀ _ hmin.ne'
  have hnearest := nearest_nearestMagnitude num hden
  refine Nat.lt_of_le_of_ne hnearest.le fun heq => ?_
  -- zero would be nearer than infinity
  have hnear := hnearest.near 0 (Nat.zero_le _)
  have hzero : |(units 0 : ℚ) - unitsOf num den| = unitsOf num den := by simp [abs_of_nonneg hq]
  rw [heq, hzero] at hnear
  have hdouble : (units infinityBits : ℚ) ≤ 2 * unitsOf num den := by
    linarith [le_abs_self ((units infinityBits : ℚ) - unitsOf num den)]
  have hscaled := mul_le_mul_of_nonneg_right hdouble hmin.le
  rw [units_infinityBits, mul_assoc 2 (unitsOf num den), hunits] at hscaled
  exact not_lt.mpr hscaled h

end ScriptCore.Numeric

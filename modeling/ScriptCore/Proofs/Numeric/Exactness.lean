import ScriptCore.Proofs.Numeric.Rounding

/-!
# Numbers that are doubles

Of two magnitudes nearest to one number neither is left out (`Numeric.Nearest.unique`), so rounding looks at
the value of a fraction alone, and a fraction that is a double is rounded to that very double. Every double
that is a number is built from its sign and its magnitude (`Numeric.exists_ofMagnitude`), and the integers
of up to 53 bits are doubles (`Numeric.rational?_ofInt`). Rounding keeps the order (`Numeric.rounded_mono`).
-/
namespace ScriptCore.Numeric

variable {m m' n num den num' den' : Nat} {q : ℚ} {negative : Bool} {x : Float} {i : Int}

/-! ## One nearest magnitude -/

/-- Of two nearest magnitudes the lower would be even, and so would the upper; but what lies between is nearer. -/
theorem Nearest.le_of_nearest (h : Nearest q m) (h' : Nearest q m') : m' ≤ m := by
  by_contra hlt
  have hlt := not_le.mp hlt
  have heq : |(units m : ℚ) - q| = |(units m' : ℚ) - q| := le_antisymm (h.near m' h'.le) (h'.near m h.le)
  have heven := h.even m' h'.le heq (Nat.ne_of_gt hlt)
  have heven' := h'.even m h.le heq.symm (Nat.ne_of_lt hlt)
  have hbetween : m < m + 1 ∧ m + 1 < m' := by omega
  have hlow : (units m : ℚ) < units (m + 1) := by exact_mod_cast units_strictMono hbetween.1
  have hhigh : (units (m + 1) : ℚ) < units m' := by exact_mod_cast units_strictMono hbetween.2
  have hnear := h.near (m + 1) (hbetween.2.le.trans h'.le)
  have hnear' := h'.near (m + 1) (hbetween.2.le.trans h'.le)
  obtain hq | hq := le_total q (units (m + 1))
  · rw [abs_of_pos (by linarith), abs_of_nonneg (by linarith)] at hnear'
    linarith
  · rw [abs_of_neg (by linarith), abs_of_nonpos (by linarith)] at hnear
    linarith

theorem Nearest.unique (h : Nearest q m) (h' : Nearest q m') : m = m' :=
  le_antisymm (h'.le_of_nearest h) (h.le_of_nearest h')

/-- The nearest magnitude grows with the number: of two that do not, the numbers would be one, halfway between. -/
theorem Nearest.mono {q' : ℚ} (h : Nearest q m) (h' : Nearest q' m') (hq : q ≤ q') : m ≤ m' := by
  by_contra hlt
  have hunits : (units m' : ℚ) < units m := by exact_mod_cast units_strictMono (not_le.mp hlt)
  have hupper : units m' + units m ≤ 2 * q := by
    by_contra hbelow
    have hnearer : |(units m' : ℚ) - q| < units m - q := abs_lt.mpr ⟨by linarith, by linarith⟩
    linarith [h.near m' h'.le, le_abs_self ((units m : ℚ) - q)]
  have hlower : 2 * q' ≤ units m' + units m := by
    by_contra habove
    have hnearer : |(units m : ℚ) - q'| < q' - units m' := abs_lt.mpr ⟨by linarith, by linarith⟩
    linarith [h'.near m h.le, neg_abs_le ((units m' : ℚ) - q')]
  obtain rfl : q = q' := by linarith
  exact hlt (h.unique h').le

theorem nearest_units (h : m ≤ infinityBits) : Nearest (units m) m := by
  have hself : |(units m : ℚ) - units m| = 0 := by rw [sub_self, abs_zero]
  refine ⟨h, fun m' _ => hself ▸ abs_nonneg _, fun m' _ heq hne => ?_⟩
  rw [hself, eq_comm, abs_eq_zero, sub_eq_zero, Nat.cast_inj] at heq
  exact absurd (units_strictMono.injective heq) hne

/-- Fractions of one value have one nearest magnitude. -/
theorem nearestMagnitude_congr (hden : 0 < den) (hden' : 0 < den') (h : (num : ℚ) / den = num' / den') :
    nearestMagnitude num den = nearestMagnitude num' den' := by
  have hnearest := nearest_nearestMagnitude num' hden'
  rw [unitsOf, ← h] at hnearest
  exact (nearest_nearestMagnitude num hden).unique hnearest

/-- A number that is a magnitude is rounded to that magnitude. -/
theorem nearestMagnitude_of_units (hden : 0 < den) (hm : m ≤ infinityBits)
    (h : (num : ℚ) / den = units m * 2 ^ minExponent) : nearestMagnitude num den = m := by
  have hunits : unitsOf num den = units m := by
    rw [unitsOf, h, mul_div_cancel_right₀ _ (zpow_pos two_pos _).ne']
  exact (hunits ▸ nearest_nearestMagnitude num hden).unique (nearest_units hm)

/-! ## Doubles by their bits -/

/-- Every double that is a number is built from its sign and its magnitude. -/
theorem exists_ofMagnitude (h : x.isNaN = false) :
    ∃ negative m, m ≤ infinityBits ∧ x = ofMagnitude negative m ∧ parts x = partsOfBits negative m := by
  have hpow : Nat.pow 2 63 = 2 ^ 63 := rfl
  have hpow' : Nat.pow 2 52 = 2 ^ 52 := rfl
  have hlt : x.toBits.toNat < 2 ^ 64 := x.toBits.toNat_lt
  refine ⟨Nat.pow 2 63 ≤ x.toBits.toNat, x.toBits.toNat % Nat.pow 2 63, ?_, ?_, rfl⟩
  · by_contra hbeyond
    have hbeyond : 0x7FF * 2 ^ 52 < x.toBits.toNat % 2 ^ 63 := not_le.mp hbeyond
    have hparts : parts x = .nan := by
      unfold parts partsOfBits
      simp only [hpow, hpow']
      rw [if_pos (by omega), if_neg (by omega)]
    rw [isNaN_iff_parts.mpr hparts] at h
    cases h
  · have hsplit : (if decide (Nat.pow 2 63 ≤ x.toBits.toNat) = true then
        Nat.pow 2 63 + x.toBits.toNat % Nat.pow 2 63 else x.toBits.toNat % Nat.pow 2 63) = x.toBits.toNat := by
      simp only [decide_eq_true_eq, hpow]
      split <;> omega
    rw [ofMagnitude, hsplit, UInt64.ofNat_toNat, Float.ofBits_toBits]

/-- A double that is no number has one encoding. -/
theorem eq_nan (h : x.isNaN = true) : x = nan := by
  rw [Float.isNaN_eq_decide_eq_nan, decide_eq_true_eq] at h
  have hnan : nan.isNaN = true := isNaN_nan
  rw [Float.isNaN_eq_decide_eq_nan, decide_eq_true_eq] at hnan
  exact h.trans hnan.symm

theorem isNegativeZero_ofMagnitude (hm : m ≤ infinityBits) :
    isNegativeZero (ofMagnitude negative m) = (negative && decide (m = 0)) := by
  have hlt : m ≤ 0x7FF * 2 ^ 52 := hm
  have hbits : (ofMagnitude negative m).toBits = 0x8000000000000000 ↔ negative = true ∧ m = 0 := by
    rw [← UInt64.toNat_inj, toNat_toBits_ofMagnitude hm, show (0x8000000000000000 : UInt64).toNat = 2 ^ 63 from rfl]
    cases negative
    · simp
      omega
    · simp
  rw [isNegativeZero, Bool.eq_iff_iff, decide_eq_true_eq, hbits, Bool.and_eq_true, decide_eq_true_eq]

/-- A mantissa is zero if it denotes the magnitude zero. -/
theorem mantissa_eq_zero_iff {mantissa : Nat} {exponent : Int}
    (h : (mantissa : ℚ) * 2 ^ exponent = units m * 2 ^ minExponent) : mantissa = 0 ↔ m = 0 := by
  have hpow (e : Int) : (2 : ℚ) ^ e ≠ 0 := (zpow_pos two_pos e).ne'
  have hunits : units m = 0 ↔ m = 0 := units_strictMono.injective.eq_iff' units_zero
  rw [← Nat.cast_eq_zero (R := ℚ), ← mul_eq_zero_iff_right (hpow exponent), h, mul_eq_zero_iff_right (hpow _),
    Nat.cast_eq_zero, hunits]

/-- What a double is that is a number: a zero, an infinity, or a mantissa with an exponent. -/
inductive IsNumber : Float → Prop
  | zero (negative : Bool) : IsNumber (ofMagnitude negative 0)
  | infinity (negative : Bool) : IsNumber (infinity negative)
  | finite {negative : Bool} {m mantissa : Nat} {exponent : Int} (hm : m < infinityBits) (hne : mantissa ≠ 0)
    (hparts : parts (ofMagnitude negative m) = .finite negative mantissa exponent)
    (hvalue : (mantissa : ℚ) * 2 ^ exponent = units m * 2 ^ minExponent) : IsNumber (ofMagnitude negative m)

theorem isNumber_of_isNaN (h : x.isNaN = false) : IsNumber x := by
  obtain ⟨negative, m, hm, rfl, hparts⟩ := exists_ofMagnitude h
  obtain rfl | hlt := Nat.eq_or_lt_of_le hm
  · exact .infinity negative
  obtain ⟨mantissa, exponent, hfinite, hvalue, -⟩ := partsOfBits_of_lt negative hlt
  by_cases hzero : m = 0
  · subst hzero
    exact .zero negative
  · exact .finite hlt (mt (mantissa_eq_zero_iff hvalue).mp hzero) (hparts.trans hfinite) hvalue

theorem rational?_zero (negative : Bool) : rational? (ofMagnitude negative 0) = some 0 := by
  have hparts : parts (ofMagnitude negative 0) = .finite negative 0 minExponent := by
    rw [parts_ofMagnitude (Nat.zero_le _)]
    cases negative <;> decide +kernel
  rw [rational?_of_parts hparts]
  simp

theorem rational?_infinity (negative : Bool) : rational? (infinity negative) = none := by
  have hparts : parts (infinity negative) = .infinity negative := by
    rw [infinity, parts_ofMagnitude (le_refl _)]
    cases negative <;> decide +kernel
  rw [rational?, hparts]

/-- The double of a fraction that is a finite magnitude denotes that fraction. -/
theorem rational?_ofRatio (hden : 0 < den) (hm : m < infinityBits)
    (h : (num : ℚ) / den = units m * 2 ^ minExponent) :
    rational? (ofRatio negative num den) = some (signOf negative * ((num : ℚ) / den)) := by
  obtain ⟨mantissa, exponent, hparts, hvalue, -⟩ := partsOfBits_of_lt negative hm
  have hfinite : parts (ofRatio negative num den) = .finite negative mantissa exponent := by
    rw [ofRatio, nearestMagnitude_of_units hden hm.le h, parts_ofMagnitude hm.le, hparts]
  rw [rational?_of_parts hfinite, hvalue, h]

/-! ## Integers -/

/-- An integer of up to 53 bits is a number of units at every exponent. -/
theorem exists_units (hn : n ≤ 2 ^ 53) (k : Nat) : ∃ m, units m = n * 2 ^ k := by
  induction k with
  | zero =>
    refine ⟨0 * 2 ^ 52 + n, ?_⟩
    rw [units_add hn (Or.inl rfl)]
  | succ k ih =>
    -- the double of a magnitude has the next exponent, or a mantissa twice as large
    obtain ⟨m, hm⟩ := ih
    obtain ⟨j, mantissa, rfl, hlt, hfull⟩ := exists_mantissa m
    rw [units_add hlt.le hfull] at hm
    rw [pow_succ, ← mul_assoc, ← hm]
    by_cases hlarge : 2 ^ 52 ≤ mantissa
    · refine ⟨(j + 1) * 2 ^ 52 + mantissa, ?_⟩
      rw [units_add hlt.le (Or.inr hlarge)]
      ring
    · obtain rfl : j = 0 := by omega
      refine ⟨0 * 2 ^ 52 + mantissa * 2, ?_⟩
      rw [units_add (by omega) (Or.inl rfl)]
      ring

/-- Integers of up to 53 bits are finite magnitudes. -/
theorem exists_units_natCast (hn : n ≤ 2 ^ 53) : ∃ m < infinityBits, (n : ℚ) = units m * 2 ^ minExponent := by
  obtain ⟨m, hm⟩ := exists_units hn 1074
  have hvalue : (n : ℚ) = units m * 2 ^ minExponent := by
    have hexponent : (2 : ℚ) ^ minExponent = (2 ^ 1074)⁻¹ := rfl
    rw [hm, hexponent, Nat.cast_mul, Nat.cast_pow, Nat.cast_ofNat, mul_inv_cancel_right₀ (by positivity)]
  refine ⟨m, ?_, hvalue⟩
  have hbound : (n : ℚ) < 2 ^ (1024 : Int) := by
    calc (n : ℚ) ≤ (2 ^ 53 : Nat) := Nat.cast_le.mpr hn
      _ = 2 ^ (53 : Int) := by norm_num
      _ < 2 ^ (1024 : Int) := zpow_lt_zpow_right₀ one_lt_two (by decide)
  rw [hvalue, ← units_infinityBits] at hbound
  have hless := lt_of_mul_lt_mul_right hbound (zpow_pos two_pos _).le
  exact units_strictMono.lt_iff_lt.mp (by exact_mod_cast hless)

/-- **An integer of up to 53 bits is a double.** -/
theorem rational?_ofInt (h : i.natAbs ≤ 2 ^ 53) : rational? (ofInt i) = some (i : ℚ) := by
  obtain ⟨m, hm, hvalue⟩ := exists_units_natCast h
  have hratio : (i.natAbs : ℚ) / (1 : Nat) = units m * 2 ^ minExponent := by rw [Nat.cast_one, div_one, hvalue]
  have hsign : signOf (decide (i < 0)) * (i.natAbs : ℚ) = i := by
    unfold signOf
    split
    next hneg =>
      have hneg : i < 0 := of_decide_eq_true hneg
      rw [Nat.cast_natAbs, abs_of_neg hneg]
      push_cast
      ring
    next hpos =>
      have hpos : 0 ≤ i := not_lt.mp fun hneg => hpos (decide_eq_true hneg)
      rw [Nat.cast_natAbs, abs_of_nonneg hpos, one_mul]
  rw [ofInt, rational?_ofRatio Nat.one_pos hm hratio, Nat.cast_one, div_one, hsign]

theorem ofNat_eq_ofInt (n : Nat) : ofNat n = ofInt n := by
  have hsign : decide ((n : Int) < 0) = false := decide_eq_false (by omega)
  rw [ofNat, ofInt, hsign, Int.natAbs_natCast]

/-! ## Natural numbers rounded -/

/-- The number that a natural number is rounded to, if it is finite. -/
theorem le_rounded_iff {k : Nat} (h : nearestMagnitude n 1 < infinityBits) :
    k ≤ rounded n ↔ (k : ℚ) ≤ units (nearestMagnitude n 1) * 2 ^ minExponent := by
  obtain ⟨mantissa, exponent, hparts, hvalue, -⟩ := partsOfBits_of_lt false h
  obtain ⟨hden, hnum⟩ := scaleDown_eq mantissa exponent
  have hden' : (0 : ℚ) < (scaleDown mantissa 1 (-exponent)).2 := Nat.cast_pos.mpr hden
  have hfinite : parts (ofNat n) = .finite false mantissa exponent := by
    rw [ofNat, ofRatio, parts_ofMagnitude h.le, hparts]
  have hrounded : rounded n = (scaleDown mantissa 1 (-exponent)).1 / (scaleDown mantissa 1 (-exponent)).2 := by
    simp only [rounded, truncate?, hfinite, Bool.false_eq_true, if_false, Int.toNat_natCast]
  rw [hrounded, Nat.le_div_iff_mul_le hden, ← hvalue, ← Nat.cast_le (α := ℚ), Nat.cast_mul, hnum,
    mul_le_mul_iff_left₀ hden']

theorem rounded_of_infinite (h : nearestMagnitude n 1 = infinityBits) : rounded n = n := by
  have hparts : parts (ofNat n) = .infinity false := by
    rw [ofNat, ofRatio, h, parts_ofMagnitude (le_refl _)]
    decide +kernel
  simp [rounded, truncate?, hparts]

/-- Natural numbers of up to 53 bits are not changed. -/
theorem rounded_eq_self (h : n ≤ 2 ^ 53) : rounded n = n := by
  obtain ⟨m, hm, hvalue⟩ := exists_units_natCast h
  have hnearest : nearestMagnitude n 1 = m :=
    nearestMagnitude_of_units Nat.one_pos hm.le (by rw [Nat.cast_one, div_one, hvalue])
  have hle (k : Nat) : k ≤ rounded n ↔ k ≤ n := by
    rw [le_rounded_iff (hnearest ▸ hm), hnearest, ← hvalue, Nat.cast_le]
  exact le_antisymm ((hle _).mp (le_refl _)) ((hle _).mpr (le_refl _))

/-- **Rounding keeps the order.** -/
theorem rounded_mono (h : n ≤ m) : rounded n ≤ rounded m := by
  have hnearest (n : Nat) : Nearest (n / 2 ^ minExponent) (nearestMagnitude n 1) := by
    simpa [unitsOf] using nearest_nearestMagnitude n Nat.one_pos
  have hpos : (0 : ℚ) < 2 ^ minExponent := zpow_pos two_pos _
  have hcast : (n : ℚ) / 2 ^ minExponent ≤ m / 2 ^ minExponent := by gcongr
  have hmono := (hnearest n).mono (hnearest m) hcast
  obtain hinfinite | hfinite := (hnearest m).le.eq_or_lt
  · rw [rounded_of_infinite hinfinite]
    obtain hinfinite' | hfinite' := (hnearest n).le.eq_or_lt
    · rwa [rounded_of_infinite hinfinite']
    · -- a finite double above `m` would be nearer to it than infinity
      by_contra hlt
      have hvalue := (le_rounded_iff hfinite').mp (Nat.le_of_lt (not_le.mp hlt))
      have hbelow := (hnearest m).mono (nearest_units (hnearest n).le) ((div_le_iff₀ hpos).mpr hvalue)
      rw [hinfinite] at hbelow
      exact not_le.mpr hfinite' hbelow
  · have hvalue := (le_rounded_iff (hmono.trans_lt hfinite)).mp (le_refl (rounded n))
    refine (le_rounded_iff hfinite).mpr (hvalue.trans ?_)
    gcongr
    exact units_strictMono.monotone hmono

end ScriptCore.Numeric

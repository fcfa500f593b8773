import ScriptCore.Proofs.Numeric.Decimals
import ScriptCore.Proofs.Numeric.Literals

/-!
# Texts of numbers that read back

Both ways to write a decimal, in full and with an exponent, put its digits around a point and count the places
(`Numeric.Written`), and the reader puts them together again (`Numeric.Written.readDecimal?_withSign`). So a
number is read back from its text whichever of the two is chosen (`Numeric.read_format_eq`), and a whole number
of few digits is written as its numeral (`Numeric.format_of_whole`).
-/
namespace ScriptCore.Numeric

variable {cs whole fraction rest : List Char} {negative : Bool} {d : Decimal} {n m mantissa : Nat}
  {exponent : Int} {x y : Float} {c : Char}

/-! ## Digits -/

theorem decimalValue_append (cs rest : List Char) :
    decimalValue (cs ++ rest) = decimalValue cs * 10 ^ rest.length + decimalValue rest := by
  rw [decimalValue_eq, decimalValue_eq, decimalValue_eq, Nat.ofDigitChars_append,
    Nat.ofDigitChars_eq_ofDigitChars_zero, Nat.mul_comm]

theorem decimalValue_zeros (n : Nat) : decimalValue (List.replicate n '0') = 0 := by
  rw [decimalValue_eq, Nat.ofDigitChars_replicate_zero, Nat.mul_zero]

theorem all_isDigit_zeros (n : Nat) : (List.replicate n '0').all isDigit = true :=
  List.all_eq_true.mpr fun c hc => by
    rw [List.eq_of_mem_replicate hc]
    decide

/-- The digits of a multiple of a power of ten end in zeros. -/
theorem naturalDigits_mul_pow (hn : 0 < n) (zeros : Nat) :
    naturalDigits (n * 10 ^ zeros) = naturalDigits n ++ List.replicate zeros '0' := by
  induction zeros with
  | zero => simp
  | succ zeros ih =>
    have hpos : 0 < n * 10 ^ zeros := Nat.mul_pos hn (Nat.pow_pos (by decide))
    have hlast := Nat.toDigits_append_toDigits (b := 10) (d := 0) (by decide) hpos (by decide)
    have hshift : n * 10 ^ (zeros + 1) = 10 * (n * 10 ^ zeros) + 0 := by
      rw [pow_succ]
      ring
    rw [hshift, naturalDigits, ← hlast, List.replicate_succ', ← List.append_assoc, ← ih]
    rfl

/-! ## Reading what is written -/

/-- The digits after a point, if there are any. -/
def pointed : List Char → List Char
  | [] => []
  | digits => '.' :: digits

theorem pointed_of_ne_nil (h : cs ≠ []) : pointed cs = '.' :: cs := by
  rw [pointed]
  exact h

/-- A text that a decimal may be written with: digits around a point, an exponent part, and in all the value of
the decimal. -/
def Written (d : Decimal) (cs : List Char) : Prop :=
  ∃ whole fraction rest, ∃ exponent : Int, whole ≠ [] ∧ whole.all isDigit = true ∧ fraction.all isDigit = true ∧
    cs = whole ++ (pointed fraction ++ rest) ∧ readExponent? rest = some exponent ∧
    (decimalValue (whole ++ fraction) : ℚ) * 10 ^ (exponent - fraction.length) = d.value

theorem readSign_withSign (negative : Bool) (hne : whole ≠ []) (hwhole : whole.all isDigit = true) (rest : List Char) :
    readSign (withSign negative (whole ++ rest)) = (negative, whole ++ rest) := by
  cases negative with
  | true => rfl
  | false =>
    obtain ⟨first, tail, rfl⟩ := List.exists_cons_of_ne_nil hne
    have hfirst : first.isDigit = true := by
      rw [isDigit_eq_isDigit] at hwhole
      exact List.all_eq_true.mp hwhole first List.mem_cons_self
    obtain ⟨hplus, hminus⟩ := not_sign_of_isDigit hfirst
    simp only [withSign, Bool.false_eq_true, if_false, List.cons_append]
    unfold readSign
    split
    · exact absurd (List.cons.inj ‹_›).1 hplus
    · exact absurd (List.cons.inj ‹_›).1 hminus
    · rfl

/-- After the whole part the reader finds the digits after the point, and the exponent part. -/
theorem readFraction_pointed (hfraction : fraction.all isDigit = true) (hrest : Exponent rest) :
    readFraction (pointed fraction ++ rest) = (fraction, rest) := by
  have hletter (c : Char) (hc : rest.head? = some c) : c.isDigit = false := by
    obtain rfl | rfl := head_of_exponent hrest hc <;> rfl
  cases fraction with
  | nil =>
    refine readFraction_of_not fun tail htail => ?_
    have hhead : rest.head? = some '.' := by
      rw [show rest = '.' :: tail from htail]
      rfl
    exact absurd (head_of_exponent hrest hhead) (by decide)
  | cons first tail =>
    rw [isDigit_eq_isDigit] at hfraction
    obtain ⟨htake, hdrop⟩ := digits_append hfraction hletter
    rw [pointed_of_ne_nil (List.cons_ne_nil first tail), List.cons_append, readFraction, htake, hdrop]

theorem head_pointed (hrest : Exponent rest) (hc : (pointed fraction ++ rest).head? = some c) :
    c.isDigit = false := by
  cases fraction with
  | nil => obtain rfl | rfl := head_of_exponent hrest hc <;> rfl
  | cons first tail =>
    obtain rfl : '.' = c := Option.some.inj hc
    rfl

/-- **What a decimal is written with is read as its nearest double.** -/
theorem Written.readDecimal?_withSign (h : Written d cs) (negative : Bool) :
    readDecimal? (withSign negative cs) = some (ofMagnitude negative d.magnitude) := by
  obtain ⟨whole, fraction, rest, exponent, hne, hwhole, hfraction, rfl, hexponent, hvalue⟩ := h
  have hrest : Exponent rest := readExponent?_isSome.mp (by rw [hexponent]; rfl)
  have hdigits : whole.all Char.isDigit = true := isDigit_eq_isDigit ▸ hwhole
  have hpoint : ∀ c, (pointed fraction ++ rest).head? = some c → c.isDigit = false := fun _ => head_pointed hrest
  obtain ⟨htake, hdrop⟩ := digits_append hdigits hpoint
  have hempty : whole.isEmpty = false := by simpa using hne
  have hmagnitude : Decimal.magnitude ⟨decimalValue (whole ++ fraction), exponent - fraction.length⟩ = d.magnitude :=
    Decimal.magnitude_congr hvalue
  rw [readDecimal?_eq, readSign_withSign negative hne hwhole, htake, hdrop, readFraction_pointed hfraction hrest,
    hempty, Bool.false_and, if_neg Bool.false_ne_true, hexponent, Option.map_some, ofDecimal_eq, hmagnitude]

/-! ## The two layouts -/

/-- Digits around a point, without an exponent part. -/
theorem written_around (hne : whole ≠ []) (hwhole : whole.all isDigit = true) (hfraction : fraction.all isDigit = true)
    (hvalue : (decimalValue (whole ++ fraction) : ℚ) * 10 ^ (-fraction.length : Int) = d.value) :
    Written d (whole ++ pointed fraction) := by
  refine ⟨whole, fraction, [], 0, hne, hwhole, hfraction, ?_, rfl, ?_⟩
  · rw [List.append_nil]
  · rw [zero_sub, hvalue]

theorem naturalDigits_ne_nil (n : Nat) : naturalDigits n ≠ [] := (isNumeral_naturalDigits n).nonempty

theorem written_whole (n zeros : Nat) : Written ⟨n, zeros⟩ (naturalDigits n ++ List.replicate zeros '0') := by
  have hall : (naturalDigits n ++ List.replicate zeros '0').all isDigit = true := by
    rw [List.all_append, all_isDigit_naturalDigits, all_isDigit_zeros, Bool.and_self]
  have hwritten : Written ⟨n, zeros⟩ (naturalDigits n ++ List.replicate zeros '0' ++ pointed []) := by
    refine written_around (by simp [naturalDigits_ne_nil n]) hall rfl ?_
    rw [List.append_nil, decimalValue_append, decimalValue_naturalDigits, decimalValue_zeros, Decimal.value]
    simp
  rwa [pointed, List.append_nil] at hwritten

/-- The point stands among the digits. -/
theorem written_inside {places : Nat} (hpos : 0 < places) (h : places < (naturalDigits n).length) :
    Written ⟨n, -places⟩ ((naturalDigits n).take ((naturalDigits n).length - places) ++
      '.' :: (naturalDigits n).drop ((naturalDigits n).length - places)) := by
  have hall := all_isDigit_naturalDigits n
  have hvalue := decimalValue_naturalDigits n
  generalize naturalDigits n = digits at h hall hvalue ⊢
  have hlength : (digits.drop (digits.length - places)).length = places := by
    rw [List.length_drop]
    omega
  rw [← List.take_append_drop (digits.length - places) digits] at hall hvalue
  rw [List.all_append, Bool.and_eq_true] at hall
  rw [← pointed_of_ne_nil (List.ne_nil_of_length_pos (hpos.trans_eq hlength.symm))]
  refine written_around (List.ne_nil_of_length_pos ?_) hall.1 hall.2 ?_
  · rw [List.length_take]
    omega
  · rw [hvalue, hlength, Decimal.value]

/-- The point stands before the digits, with zeros between. -/
theorem written_before {places : Nat} (h : (naturalDigits n).length ≤ places) :
    Written ⟨n, -places⟩ (['0', '.'] ++ List.replicate (places - (naturalDigits n).length) '0' ++ naturalDigits n) := by
  obtain ⟨zeros, hzeros⟩ : ∃ zeros, zeros = List.replicate (places - (naturalDigits n).length) '0' := ⟨_, rfl⟩
  have hlength : (zeros ++ naturalDigits n).length = places := by
    rw [hzeros, List.length_append, List.length_replicate]
    omega
  have hdigits : (zeros ++ naturalDigits n).all isDigit = true := by
    rw [List.all_append, all_isDigit_naturalDigits, hzeros, all_isDigit_zeros, Bool.and_self]
  have hfront : decimalValue ['0'] = 0 := by decide
  rw [← hzeros, List.append_assoc, List.cons_append, List.singleton_append,
    ← pointed_of_ne_nil (by simp [naturalDigits_ne_nil n]), ← List.singleton_append]
  refine written_around (by simp) (by decide) hdigits ?_
  rw [decimalValue_append, decimalValue_append, hfront, decimalValue_naturalDigits, hlength, hzeros, decimalValue_zeros,
    Nat.zero_mul, Nat.zero_mul, Nat.zero_add, Nat.zero_add, Decimal.value]

theorem written_positional (d : Decimal) : Written d d.positional := by
  obtain ⟨n, exponent⟩ := d
  unfold Decimal.positional
  dsimp only
  split
  next hle =>
    obtain ⟨zeros, rfl⟩ := Int.eq_ofNat_of_zero_le hle
    exact written_whole n zeros
  next hlt =>
    obtain ⟨places, rfl⟩ : ∃ places : Nat, exponent = -(places : Int) := ⟨(-exponent).toNat, by omega⟩
    rw [neg_neg, Int.toNat_natCast]
    split
    next hinside => exact written_inside (by omega) hinside
    next hbefore => exact written_before (Nat.le_of_not_lt hbefore)

/-- The exponent part of a number is read as the place that it names. -/
theorem readExponent?_place (place : Int) :
    readExponent? ('e' :: (if place < 0 then '-' else '+') :: naturalDigits place.natAbs) = some place := by
  have hempty : (naturalDigits place.natAbs).isEmpty = false := by
    simpa using naturalDigits_ne_nil place.natAbs
  have hall := all_isDigit_naturalDigits place.natAbs
  have hvalue := decimalValue_naturalDigits place.natAbs
  split
  next hneg =>
    simp only [readExponent?, true_or, if_true, readSign, hempty, hall, hvalue, Bool.not_true, Bool.or_self,
      Bool.false_eq_true, if_false]
    exact congrArg some (by omega)
  next hpos =>
    simp only [readExponent?, true_or, if_true, readSign, hempty, hall, hvalue, Bool.not_true, Bool.or_self,
      Bool.false_eq_true, if_false]
    exact congrArg some (by omega)

theorem written_scientific (d : Decimal) : Written d d.scientific := by
  obtain ⟨first, tail, hdigits⟩ := List.exists_cons_of_ne_nil (naturalDigits_ne_nil d.digits)
  have hvalue := decimalValue_naturalDigits d.digits
  have hall := all_isDigit_naturalDigits d.digits
  rw [hdigits, List.all_cons, Bool.and_eq_true] at hall
  refine ⟨[first], tail, _, d.leadingPlace, by simp, by simpa using hall.1, hall.2, ?_, readExponent?_place _, ?_⟩
  · unfold Decimal.scientific
    rw [hdigits]
    cases tail <;> rfl
  · have hplace : d.leadingPlace - tail.length = d.exponent := by
      rw [Decimal.leadingPlace, hdigits, List.length_cons]
      push_cast
      ring
    rw [List.singleton_append, ← hdigits, hvalue, hplace, Decimal.value]

/-! ## The text of a number -/

theorem isBlank_of_isDigit (h : c.isDigit = true) : Text.isBlank c = false := by
  rw [Char.isDigit, Bool.and_eq_true, decide_eq_true_eq, decide_eq_true_eq] at h
  have hlow : 48 ≤ c.toNat := h.1
  have hhigh : c.toNat ≤ 57 := h.2
  simp only [Text.isBlank, Text.inRanges, Text.blankRanges, List.any_cons, List.any_nil, Bool.or_false,
    Bool.or_eq_false_iff, Bool.and_eq_false_iff, decide_eq_false_iff_not]
  omega

/-- No character of a decimal literal is white space. -/
theorem isBlank_of_decimalLiteral (h : DecimalLiteral cs) (hc : c ∈ cs) : Text.isBlank c = false := by
  have hdigits {digits : List Char} (h : digits.all Char.isDigit = true) (hc : c ∈ digits) :
      Text.isBlank c = false := isBlank_of_isDigit (List.all_eq_true.mp h c hc)
  have hsign {sign : List Char} (h : Sign sign) (hc : c ∈ sign) : Text.isBlank c = false := by
    cases h <;> simp only [List.mem_singleton, List.not_mem_nil] at hc <;> subst hc <;> decide
  obtain ⟨sign, mantissa, exponent, hs, hmantissa, hexponent, rfl⟩ := h
  rcases List.mem_append.mp hc with hc | hc
  · exact hsign hs hc
  rcases List.mem_append.mp hc with hc | hc
  · cases hmantissa with
    | whole h => exact hdigits h hc
    | pointed h hfraction =>
      rcases List.mem_append.mp hc with hc | hc
      · exact hdigits h hc
      · rcases List.mem_cons.mp hc with rfl | hc
        · decide
        · exact hdigits hfraction hc
  · cases hexponent with
    | none => cases hc
    | some hmark hs h =>
      rcases List.mem_cons.mp hc with rfl | hc
      · rcases hmark with rfl | rfl <;> decide
      · rcases List.mem_append.mp hc with hc | hc
        · exact hsign hs hc
        · exact hdigits h hc

/-- A decimal literal is read as such. -/
theorem read_of_readDecimal? (h : readDecimal? cs = some x) : read (String.ofList cs) = x := by
  have hliteral : DecimalLiteral cs := readDecimal?_isSome.mp (by rw [h]; rfl)
  have htrim : Text.trimBlank cs = cs := by
    refine trimmed_iff.mp ⟨⟨[], [], by simp, rfl, rfl⟩, fun c hc => ?_, fun c hc => ?_⟩
    · exact isBlank_of_decimalLiteral hliteral (List.mem_of_mem_head? hc)
    · exact isBlank_of_decimalLiteral hliteral (List.mem_of_mem_getLast? hc)
  have hmark : radixMark? cs = none := by
    cases hmark : radixMark? cs with
    | none => rfl
    | some rest => exact absurd hliteral (not_decimalLiteral_of_mark hmark)
  -- the empty text and the signed infinities are no decimals
  have hnot (text : List Char) (hnone : readDecimal? text = none) : cs ≠ text := by
    rintro rfl
    rw [hnone] at h
    cases h
  have hempty : cs.isEmpty = false := by simpa using hnot [] (by decide)
  have hplain : ¬(cs = "Infinity".toList ∨ cs = "+Infinity".toList) :=
    not_or.mpr ⟨hnot _ (by decide), hnot _ (by decide)⟩
  rw [read, String.toList_ofList, htrim, readTrimmed, hempty, if_neg Bool.false_ne_true, if_neg hplain,
    if_neg (hnot _ (by decide)), hmark]
  simp [h]

/-- The text of a finite number that is not zero. -/
theorem read_format_of_parts (hparts : parts x = .finite negative mantissa exponent) (hne : mantissa ≠ 0) :
    read (format x) = ofMagnitude negative (shortest mantissa exponent).magnitude := by
  rw [format, hparts]
  simp only [if_neg hne]
  split
  · exact read_of_readDecimal? ((written_positional _).readDecimal?_withSign negative)
  · exact read_of_readDecimal? ((written_scientific _).readDecimal?_withSign negative)

/-- **A number is read back from its text;** of a zero the sign is lost. -/
theorem read_format_eq (h : x.isNaN = false) : read (format x) = if isNegativeZero x then ofNat 0 else x := by
  cases isNumber_of_isNaN h with
  | zero negative => cases negative <;> decide +kernel
  | infinity negative => cases negative <;> decide +kernel
  | @finite negative m mantissa exponent hm hne hparts hvalue =>
    have hpos : m ≠ 0 := mt (mantissa_eq_zero_iff hvalue).mpr hne
    rw [isNegativeZero_ofMagnitude hm.le, decide_eq_false hpos, Bool.and_false, if_neg Bool.false_ne_true,
      read_format_of_parts hparts hne, magnitude_shortest hvalue hm.le]

/-- Only the two zeros denote zero. -/
theorem eq_zero_of_rational? (h : rational? x = some 0) : ∃ negative, x = ofMagnitude negative 0 := by
  have hnumber : x.isNaN = false := by
    rw [← Bool.not_eq_true, isNaN_iff_parts]
    intro hnan
    rw [rational?, hnan] at h
    cases h
  cases isNumber_of_isNaN hnumber with
  | zero negative => exact ⟨negative, rfl⟩
  | infinity negative =>
    rw [rational?_infinity] at h
    cases h
  | @finite negative m mantissa exponent hm hne hparts hvalue =>
    have hsign : signOf negative ≠ 0 := by cases negative <;> norm_num [signOf]
    have hvalue : (mantissa : ℚ) * 2 ^ exponent ≠ 0 :=
      mul_ne_zero (Nat.cast_ne_zero.mpr hne) (zpow_pos two_pos _).ne'
    rw [rational?_of_parts hparts, Option.some.injEq] at h
    exact absurd h (mul_ne_zero hsign hvalue)

theorem rational?_of_isNegativeZero (h : isNegativeZero x = true) : rational? x = some 0 := by
  have hbits : (ofMagnitude true 0).toBits = 0x8000000000000000 := by decide +kernel
  rw [← rational?_zero true, Float.toBits_inj.mp ((of_decide_eq_true h).trans hbits.symm)]

theorem rational?_of_eq_zero (h : x = ofNat 0) : rational? x = some 0 := by
  rw [h]
  exact rational?_zero false

theorem isNaN_read_format (x : Float) : (read (format x)).isNaN = x.isNaN := by
  cases h : x.isNaN with
  | true =>
    rw [eq_nan h]
    decide +kernel
  | false =>
    rw [read_format_eq h]
    split
    · exact isNaN_ofRatio _ _ _
    · exact h

theorem format_of_zero (h : rational? x = some 0) : format x = "0" := by
  obtain ⟨negative, rfl⟩ := eq_zero_of_rational? h
  cases negative <;> decide +kernel

/-- **The text of a number tells the number,** but for the sign of a zero. -/
theorem format_eq_iff : format x = format y ↔ x = y ∨ rational? x = some 0 ∧ rational? y = some 0 := by
  constructor
  · intro h
    have hnan : x.isNaN = y.isNaN := by rw [← isNaN_read_format, h, isNaN_read_format]
    cases hx : x.isNaN with
    | true => exact Or.inl ((eq_nan hx).trans (eq_nan (hnan ▸ hx)).symm)
    | false =>
      -- what is read back is the number itself, unless that is the negative zero
      have heq := congrArg read h
      rw [read_format_eq hx, read_format_eq (hnan ▸ hx)] at heq
      split at heq <;> split at heq
      · exact Or.inr ⟨rational?_of_isNegativeZero ‹_›, rational?_of_isNegativeZero ‹_›⟩
      · exact Or.inr ⟨rational?_of_isNegativeZero ‹_›, rational?_of_eq_zero heq.symm⟩
      · exact Or.inr ⟨rational?_of_eq_zero heq, rational?_of_isNegativeZero ‹_›⟩
      · exact Or.inl heq
  · rintro (rfl | ⟨hx, hy⟩)
    · rfl
    · rw [format_of_zero hx, format_of_zero hy]

/-! ## Whole numbers -/

/-- Whole numbers of up to 53 bits keep their digits. -/
theorem shortest_of_whole (h : (mantissa : ℚ) * 2 ^ exponent = n) (hn : n < 2 ^ 53) :
    shortest mantissa exponent = Decimal.trimmed ⟨n, 0⟩ := by
  obtain ⟨hden, hnum⟩ := scaleDown_eq mantissa exponent
  obtain ⟨hmod, hdiv⟩ := (natCast_of_fraction hden hnum n).mp h
  have hpow : Nat.pow 2 53 = 2 ^ 53 := rfl
  unfold shortest
  simp only [hmod, hdiv, hpow, hn, and_self, if_true]

/-- The digits of a whole number are written without a point, whatever zeros were trimmed. -/
theorem positional_trimmed (hn : 0 < n) : (Decimal.trimmed ⟨n, 0⟩).positional = naturalDigits n ∧
    (Decimal.trimmed ⟨n, 0⟩).leadingPlace = (naturalDigits n).length - 1 := by
  obtain ⟨zeros, hdigits, hexponent⟩ := Decimal.trimmedWithin_eq n.log2 ⟨n, 0⟩
  change n = (Decimal.trimmed ⟨n, 0⟩).digits * 10 ^ zeros at hdigits
  change (Decimal.trimmed ⟨n, 0⟩).exponent = 0 + zeros at hexponent
  generalize Decimal.trimmed ⟨n, 0⟩ = d at hdigits hexponent
  have hpos : 0 < d.digits := by
    refine Nat.pos_of_ne_zero fun hzero => ?_
    rw [hzero, Nat.zero_mul] at hdigits
    omega
  have hall := naturalDigits_mul_pow hpos zeros
  rw [← hdigits] at hall
  rw [zero_add] at hexponent
  constructor
  · rw [Decimal.positional]
    simp only [hexponent, Int.natCast_nonneg, if_true, Int.toNat_natCast, hall]
  · rw [Decimal.leadingPlace, hexponent, hall, List.length_append, List.length_replicate]
    push_cast
    ring

theorem parts_of_pos {q : ℚ} (h : rational? x = some q) (hq : 0 < q) :
    ∃ mantissa exponent, parts x = .finite false mantissa exponent ∧ (mantissa : ℚ) * 2 ^ exponent = q := by
  rw [rational?] at h
  split at h
  next negative mantissa exponent hparts =>
    have hvalue := Option.some.inj h
    have hnonneg : 0 ≤ (mantissa : ℚ) * 2 ^ exponent := by positivity
    cases negative with
    | false =>
      rw [if_neg Bool.false_ne_true, one_mul] at hvalue
      exact ⟨mantissa, exponent, hparts, hvalue⟩
    | true =>
      rw [if_pos rfl] at hvalue
      linarith
  next => cases h

/-- **A whole number of up to 53 bits is written as its numeral.** -/
theorem format_of_whole (h : rational? x = some (n : ℚ)) (hn : n < 2 ^ 53) : format x = toString n := by
  obtain rfl | hpos := Nat.eq_zero_or_pos n
  · exact format_of_zero (by exact_mod_cast h)
  have hcast : (0 : ℚ) < n := Nat.cast_pos.mpr hpos
  obtain ⟨mantissa, exponent, hparts, hvalue⟩ := parts_of_pos h hcast
  have hne : mantissa ≠ 0 := by
    rintro rfl
    rw [Nat.cast_zero, zero_mul] at hvalue
    exact hcast.ne hvalue
  obtain ⟨htext, hplace⟩ := positional_trimmed hpos
  -- at most 16 digits, which are fewer than the 21 that are written in full
  have hlength : 0 < (naturalDigits n).length := Nat.length_toDigits_pos
  have hshort : (naturalDigits n).length ≤ 21 :=
    (Nat.length_toDigits_le_iff (by decide) (by decide)).mpr (hn.trans (by decide))
  rw [format, hparts]
  simp only [if_neg hne, shortest_of_whole hvalue hn]
  rw [if_pos ⟨by omega, by omega⟩, htext, withSign, if_neg Bool.false_ne_true, Nat.toString_eq_ofList_toDigits,
    naturalDigits]

end ScriptCore.Numeric

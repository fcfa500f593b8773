import ScriptCore.Proofs.Numeric.Rounding

/-!
# Number literals

The texts that denote a number, as a grammar: nothing, `Infinity` with an optional sign, digits after a radix
mark, and decimal literals, all inside white space. The reader follows it (`Numeric.read_accepts`), but takes
one plus sign between a radix mark and its digits, and no integer of more than 64 bits there
(`Numeric.read_departs`). What it takes is read as the nearest double.
-/
namespace ScriptCore.Numeric

variable {cs inner digits : List Char} {c : Char} {d n radix : Nat}

/-! ## White space -/

/-- What is left of a text without the white space at its ends. -/
structure Trimmed (cs inner : List Char) : Prop where
  within : ∃ left right, cs = left ++ inner ++ right ∧ left.all Text.isBlank = true ∧ right.all Text.isBlank = true
  head : ∀ c, inner.head? = some c → Text.isBlank c = false
  last : ∀ c, inner.getLast? = some c → Text.isBlank c = false

theorem dropWhile_append_of_all {p : Char → Bool} {left rest : List Char} (hleft : left.all p = true)
    (hrest : ∀ c, rest.head? = some c → p c = false) : (left ++ rest).dropWhile p = rest := by
  rw [List.dropWhile_append_of_pos (List.all_eq_true.mp hleft)]
  cases rest with
  | nil => rfl
  | cons c rest => rw [List.dropWhile_cons_of_neg (by simp [hrest c rfl])]

theorem takeWhile_append_of_all {p : Char → Bool} {left rest : List Char} (hleft : left.all p = true)
    (hrest : ∀ c, rest.head? = some c → p c = false) : (left ++ rest).takeWhile p = left := by
  rw [List.takeWhile_append_of_pos (List.all_eq_true.mp hleft)]
  cases rest with
  | nil => simp
  | cons c rest => rw [List.takeWhile_cons_of_neg (by simp [hrest c rfl]), List.append_nil]

theorem head_dropWhile {p : Char → Bool} (h : (cs.dropWhile p).head? = some c) : p c = false := by
  have hstop := List.head?_dropWhile_not p cs
  rwa [h] at hstop

theorem trimmed_trimBlank (cs : List Char) : Trimmed cs (Text.trimBlank cs) := by
  obtain ⟨tail, htail⟩ : ∃ tail, tail = cs.dropWhile Text.isBlank := ⟨_, rfl⟩
  have hcs : cs = cs.takeWhile Text.isBlank ++ tail := by rw [htail, List.takeWhile_append_dropWhile]
  have hsplit : tail = Text.trimBlank cs ++ (tail.reverse.takeWhile Text.isBlank).reverse := by
    rw [Text.trimBlank, ← htail, ← List.reverse_append, List.takeWhile_append_dropWhile, List.reverse_reverse]
  refine ⟨⟨_, _, by rw [List.append_assoc, ← hsplit]; exact hcs, List.all_takeWhile, ?_⟩, fun c hc => ?_,
    fun c hc => ?_⟩
  · rw [List.all_reverse]
    exact List.all_takeWhile
  · have hhead : tail.head? = some c := by rw [hsplit, List.head?_append, hc]; rfl
    exact head_dropWhile (htail ▸ hhead)
  · rw [Text.trimBlank, List.getLast?_reverse] at hc
    exact head_dropWhile hc

theorem trimmed_iff : Trimmed cs inner ↔ Text.trimBlank cs = inner := by
  constructor
  · rintro ⟨⟨left, right, rfl, hleft, hright⟩, hhead, hlast⟩
    cases inner with
    | nil =>
      have hall : (left ++ [] ++ right).all Text.isBlank = true := by simp [hleft, hright]
      have hnil : (left ++ [] ++ right ++ []).dropWhile Text.isBlank = [] := dropWhile_append_of_all hall (by simp)
      rw [List.append_nil] at hnil
      rw [Text.trimBlank, hnil]
      rfl
    | cons c rest =>
      have hdrop : (left ++ (c :: rest ++ right)).dropWhile Text.isBlank = c :: rest ++ right :=
        dropWhile_append_of_all hleft (by simpa using hhead)
      have hdrop' : (right.reverse ++ (c :: rest).reverse).dropWhile Text.isBlank = (c :: rest).reverse :=
        dropWhile_append_of_all (by rwa [List.all_reverse]) (by rwa [List.head?_reverse])
      rw [Text.trimBlank, List.append_assoc, hdrop, List.reverse_append, hdrop', List.reverse_reverse]
  · rintro rfl
    exact trimmed_trimBlank cs

/-! ## Digits -/

/-- The digits of all radixes, in the order of their values. -/
def digitChars : List Char := "0123456789abcdefghijklmnopqrstuvwxyz".toList

/-- A digit of a radix, a letter in either case. -/
def IsDigitOf (radix : Nat) (c : Char) (d : Nat) : Prop := d < radix ∧ digitChars[d]? = some c.toLower

/-- One or more digits of a radix and the integer that they denote. -/
inductive Denotes (radix : Nat) : List Char → Nat → Prop
  | digit {c : Char} {d : Nat} (h : IsDigitOf radix c d) : Denotes radix [c] d
  | more {cs : List Char} {c : Char} {n d : Nat} (h : Denotes radix cs n) (hdigit : IsDigitOf radix c d) :
    Denotes radix (cs ++ [c]) (n * radix + d)

theorem toNat_lt_of_digit (h : c ∈ digitChars) : c.toNat < 128 := by
  have hall : digitChars.all (fun c => decide (c.toNat < 128)) = true := by decide +kernel
  exact of_decide_eq_true (List.all_eq_true.mp hall c h)

/-- The reader knows the digits by their place in the alphabet. -/
theorem digitValue?_eq_some_iff : digitValue? c = some d ↔ digitChars[d]? = some c.toLower := by
  by_cases hascii : c.toNat < 128
  · have hvalues : ∀ i : Fin 128, ∀ d : Fin 36,
        digitValue? (Char.ofNat i) = some d.val ↔ digitChars[d.val]? = some (Char.ofNat i).toLower := by
      decide +kernel
    have hbound : ∀ i : Fin 128, ∀ d ∈ digitValue? (Char.ofNat i), d < 36 := by decide +kernel
    have hc : Char.ofNat c.toNat = c := Char.ofNat_toNat c
    by_cases hd : d < 36
    · simpa [hc] using hvalues ⟨c.toNat, hascii⟩ ⟨d, hd⟩
    · refine iff_of_false (fun h => hd (hbound ⟨c.toNat, hascii⟩ d (by simpa [hc] using h))) fun h => hd ?_
      exact (List.getElem?_eq_some_iff.mp h).1
  · have hcode (c' : Char) (hc' : c'.toNat < 128) : ¬c ≤ c' := fun hle => hascii (Nat.lt_of_le_of_lt hle hc')
    have hlower : c.toLower = c := by
      rw [Char.toLower, dif_neg]
      exact fun h => hcode 'Z' (by decide) h.2
    refine iff_of_false ?_ fun h => hascii ?_
    · simp [digitValue?, isDigit, hcode '9' (by decide), hcode 'z' (by decide), hcode 'Z' (by decide)]
    · rw [hlower] at h
      exact toNat_lt_of_digit (List.mem_of_getElem? h)

theorem digitsValue?_append (radix acc : Nat) (cs : List Char) (c : Char) :
    digitsValue? radix acc (cs ++ [c]) =
      (digitsValue? radix acc cs).bind fun n => digitsValue? radix n [c] := by
  induction cs generalizing acc with
  | nil => rfl
  | cons c' rest ih =>
    simp only [List.cons_append, digitsValue?]
    split
    · split
      · exact ih _
      · rfl
    · rfl

theorem digitsValue?_singleton (radix acc : Nat) : digitsValue? radix acc [c] = some n ↔
    ∃ d, IsDigitOf radix c d ∧ n = acc * radix + d := by
  simp only [digitsValue?, IsDigitOf, ← digitValue?_eq_some_iff]
  cases digitValue? c with
  | none => simp
  | some d =>
    by_cases hd : d < radix
    · simp [hd, eq_comm]
    · simp [hd]

theorem denotes_iff : Denotes radix cs n ↔ cs ≠ [] ∧ digitsValue? radix 0 cs = some n := by
  constructor
  · intro h
    induction h with
    | digit h => exact ⟨by simp, (digitsValue?_singleton radix 0).mpr ⟨_, h, by omega⟩⟩
    | more h hdigit ih =>
      refine ⟨by simp, ?_⟩
      rw [digitsValue?_append, ih.2]
      exact (digitsValue?_singleton radix _).mpr ⟨_, hdigit, rfl⟩
  · rintro ⟨hne, hvalue⟩
    induction cs using List.reverseRecOn generalizing n with
    | nil => exact absurd rfl hne
    | append_singleton cs c ih =>
      rw [digitsValue?_append, Option.bind_eq_some_iff] at hvalue
      obtain ⟨m, hm, hdigit⟩ := hvalue
      obtain ⟨d, hd, rfl⟩ := (digitsValue?_singleton radix m).mp hdigit
      cases cs with
      | nil =>
        obtain rfl : m = 0 := (Option.some.inj hm).symm
        rw [Nat.zero_mul, Nat.zero_add]
        exact .digit hd
      | cons c' rest => exact .more (ih (by simp) hm) hd

/-! ## Integers after a radix mark -/

/-- The marks of the radixes. -/
def radixMarks : List (String × Nat) := [("0x", 16), ("0X", 16), ("0o", 8), ("0O", 8), ("0b", 2), ("0B", 2)]

/-- Digits after the mark of their radix, and the integer that they denote. -/
def RadixLiteral (cs : List Char) (n : Nat) : Prop :=
  ∃ mark ∈ radixMarks, ∃ digits, cs = mark.1.toList ++ digits ∧ Denotes mark.2 digits n

/-- What is read as an integer after a radix mark: an integer of at most 64 bits, where a plus sign may stand
before the digits. -/
def WordLiteral (cs : List Char) (n : Nat) : Prop :=
  ∃ mark ∈ radixMarks, ∃ sign digits, (sign = [] ∨ sign = ['+']) ∧ cs = mark.1.toList ++ (sign ++ digits) ∧
    Denotes mark.2 digits n ∧ n < 2 ^ 64

theorem radixMark?_eq_some_iff :
    radixMark? cs = some (radix, digits) ↔ ∃ mark ∈ radixMarks, mark.2 = radix ∧ cs = mark.1.toList ++ digits := by
  simp only [radixMarks, List.mem_cons, List.not_mem_nil, or_false, exists_eq_or_imp, exists_eq_left]
  constructor
  · intro h
    unfold radixMark? at h
    split at h <;> simp_all
  · rintro (⟨rfl, rfl⟩ | ⟨rfl, rfl⟩ | ⟨rfl, rfl⟩ | ⟨rfl, rfl⟩ | ⟨rfl, rfl⟩ | ⟨rfl, rfl⟩) <;> rfl

/-- No digit is a sign. -/
theorem not_denotes_plus : ¬Denotes radix ('+' :: cs) n := by
  intro h
  have hvalue := (denotes_iff.mp h).2
  rw [digitsValue?, show digitValue? '+' = none by decide] at hvalue
  cases hvalue

theorem readWord?_iff : readWord? radix cs = some n ↔
    ∃ sign digits, (sign = [] ∨ sign = ['+']) ∧ cs = sign ++ digits ∧ Denotes radix digits n ∧ n < 2 ^ 64 := by
  have hword (digits : List Char) :
      (if digits.isEmpty then none else (digitsValue? radix 0 digits).filter (· < Nat.pow 2 64)) = some n ↔
        Denotes radix digits n ∧ n < 2 ^ 64 := by
    rw [denotes_iff]
    cases digits with
    | nil => simp
    | cons c rest => simp [Option.filter_eq_some_iff]
  refine (hword _).trans ?_
  split
  next rest =>
    constructor
    · intro h
      exact ⟨['+'], rest, Or.inr rfl, rfl, h⟩
    · rintro ⟨sign, digits, rfl | rfl, heq, h⟩
      · rw [List.nil_append] at heq
        exact absurd (heq ▸ h.1) not_denotes_plus
      · cases heq
        exact h
  next hplain =>
    constructor
    · intro h
      exact ⟨[], cs, Or.inl rfl, rfl, h⟩
    · rintro ⟨sign, digits, rfl | rfl, heq, h⟩
      · exact heq ▸ h
      · exact absurd heq (hplain digits)

/-! ## Decimal literals -/

inductive Sign : List Char → Prop
  | none : Sign []
  | plus : Sign ['+']
  | minus : Sign ['-']

/-- Digits with an optional point, at least one digit. -/
inductive Mantissa : List Char → Prop
  | whole {whole : List Char} (h : whole.all Char.isDigit = true) (hne : whole ≠ []) : Mantissa whole
  | pointed {whole fraction : List Char} (h : whole.all Char.isDigit = true)
    (hfraction : fraction.all Char.isDigit = true) (hne : whole ≠ [] ∨ fraction ≠ []) :
    Mantissa (whole ++ '.' :: fraction)

/-- An optional exponent part. -/
inductive Exponent : List Char → Prop
  | none : Exponent []
  | some {mark : Char} {sign digits : List Char} (hmark : mark = 'e' ∨ mark = 'E') (hsign : Sign sign)
    (h : digits.all Char.isDigit = true) (hne : digits ≠ []) : Exponent (mark :: (sign ++ digits))

/-- A decimal literal. -/
def DecimalLiteral (cs : List Char) : Prop :=
  ∃ sign mantissa exponent, Sign sign ∧ Mantissa mantissa ∧ Exponent exponent ∧ cs = sign ++ (mantissa ++ exponent)

theorem isDigit_eq_isDigit : isDigit = Char.isDigit := funext isDigit_eq

theorem sign_readSign (cs : List Char) : ∃ sign, Sign sign ∧ cs = sign ++ (readSign cs).2 := by
  unfold readSign
  split
  · exact ⟨_, .plus, rfl⟩
  · exact ⟨_, .minus, rfl⟩
  · exact ⟨_, .none, rfl⟩

theorem readSign_append {sign rest : List Char} (h : Sign sign)
    (hrest : ∀ c, rest.head? = some c → c ≠ '+' ∧ c ≠ '-') : (readSign (sign ++ rest)).2 = rest := by
  cases h with
  | plus => rfl
  | minus => rfl
  | none =>
    rw [List.nil_append]
    unfold readSign
    split
    · exact absurd rfl (hrest _ rfl).1
    · exact absurd rfl (hrest _ rfl).2
    · rfl

/-- Digits are followed by what the reader goes on with. -/
theorem digits_append {whole rest : List Char} (h : whole.all Char.isDigit = true)
    (hrest : ∀ c, rest.head? = some c → c.isDigit = false) :
    (whole ++ rest).takeWhile isDigit = whole ∧ (whole ++ rest).dropWhile isDigit = rest := by
  rw [isDigit_eq_isDigit]
  exact ⟨takeWhile_append_of_all h hrest, dropWhile_append_of_all h hrest⟩

theorem not_sign_of_isDigit (h : c.isDigit = true) : c ≠ '+' ∧ c ≠ '-' := by
  constructor <;> rintro rfl <;> exact absurd h (by decide)

theorem readExponent?_isSome : (readExponent? cs).isSome = true ↔ Exponent cs := by
  constructor
  · intro h
    cases cs with
    | nil => exact .none
    | cons mark rest =>
      obtain ⟨sign, hsign, hrest⟩ := sign_readSign rest
      simp only [readExponent?] at h
      split at h
      next hmark =>
        split at h
        · cases h
        next hdigits =>
          simp only [Bool.or_eq_true, Bool.not_eq_true', not_or, Bool.not_eq_false, List.isEmpty_iff] at hdigits
          rw [hrest]
          exact .some hmark hsign (isDigit_eq_isDigit ▸ hdigits.2) hdigits.1
      · cases h
  · intro h
    cases h with
    | none => rfl
    | @some mark sign digits hmark hsign h hne =>
      have hstop : ∀ c, digits.head? = some c → c ≠ '+' ∧ c ≠ '-' := fun c hc =>
        not_sign_of_isDigit (List.all_eq_true.mp h c (List.mem_of_mem_head? hc))
      have hempty : digits.isEmpty = false := by simpa using hne
      simp only [readExponent?, if_pos hmark, readSign_append hsign hstop, isDigit_eq_isDigit, h, hempty,
        Bool.not_true, Bool.or_self, Bool.false_eq_true, if_false, Option.isSome_some]

theorem head_of_exponent (h : Exponent cs) (hc : cs.head? = some c) : c = 'e' ∨ c = 'E' := by
  cases h with
  | none => cases hc
  | some hmark =>
    obtain rfl := Option.some.inj hc
    exact hmark

/-- The digits after a point, if there is one, and the rest. -/
def readFraction : List Char → List Char × List Char
  | '.' :: rest => (rest.takeWhile isDigit, rest.dropWhile isDigit)
  | cs => ([], cs)

theorem readFraction_of_not (h : ∀ tail, cs ≠ '.' :: tail) : readFraction cs = ([], cs) := by
  unfold readFraction
  split
  · exact absurd rfl (h _)
  · rfl

/-- A decimal text is taken apart into digits, the digits after a point and an exponent part. -/
theorem readDecimal?_eq (cs : List Char) : readDecimal? cs =
    if ((readSign cs).2.takeWhile isDigit).isEmpty &&
      (readFraction ((readSign cs).2.dropWhile isDigit)).1.isEmpty then none
    else (readExponent? (readFraction ((readSign cs).2.dropWhile isDigit)).2).map fun exponent =>
      ofDecimal (readSign cs).1
        (decimalValue ((readSign cs).2.takeWhile isDigit ++ (readFraction ((readSign cs).2.dropWhile isDigit)).1))
        (exponent - (readFraction ((readSign cs).2.dropWhile isDigit)).1.length) := by
  unfold readDecimal? readFraction
  dsimp only
  split <;> simp only [*]

theorem readDecimal?_isSome_eq (unsigned : List Char) (h : (readSign cs).2 = unsigned) :
    (readDecimal? cs).isSome = true ↔
      (unsigned.takeWhile isDigit ≠ [] ∨ (readFraction (unsigned.dropWhile isDigit)).1 ≠ []) ∧
        Exponent (readFraction (unsigned.dropWhile isDigit)).2 := by
  have hunfold : (readDecimal? cs).isSome =
      (if (unsigned.takeWhile isDigit).isEmpty && (readFraction (unsigned.dropWhile isDigit)).1.isEmpty then false
        else (readExponent? (readFraction (unsigned.dropWhile isDigit)).2).isSome) := by
    rw [readDecimal?_eq, h, apply_ite Option.isSome, Option.isSome_map, Option.isSome_none]
  rw [hunfold, ← readExponent?_isSome]
  by_cases hwhole : unsigned.takeWhile isDigit = [] <;>
    by_cases hfraction : (readFraction (unsigned.dropWhile isDigit)).1 = [] <;> simp [hwhole, hfraction]

theorem readDecimal?_isSome : (readDecimal? cs).isSome = true ↔ DecimalLiteral cs := by
  constructor
  · intro h
    obtain ⟨sign, hsign, hcs⟩ := sign_readSign cs
    obtain ⟨hdigits, hexponent⟩ := (readDecimal?_isSome_eq _ rfl).mp h
    generalize (readSign cs).2 = unsigned at hcs hdigits hexponent
    obtain ⟨rest, hrest⟩ : ∃ rest, rest = unsigned.dropWhile isDigit := ⟨_, rfl⟩
    have hunsigned : unsigned = unsigned.takeWhile isDigit ++ rest := by
      rw [hrest, List.takeWhile_append_dropWhile]
    have hall (cs : List Char) : (cs.takeWhile isDigit).all Char.isDigit = true := by
      rw [isDigit_eq_isDigit]
      exact List.all_takeWhile
    rw [← hrest] at hdigits hexponent
    by_cases hpoint : ∃ tail, rest = '.' :: tail
    · obtain ⟨tail, rfl⟩ := hpoint
      refine ⟨sign, _, _, hsign, .pointed (hall unsigned) (hall tail) hdigits, hexponent, ?_⟩
      rw [hcs, List.append_assoc, List.cons_append, readFraction, List.takeWhile_append_dropWhile, ← hunsigned]
    · rw [readFraction_of_not fun tail h => hpoint ⟨tail, h⟩] at hdigits hexponent
      refine ⟨sign, _, _, hsign, .whole (hall unsigned) (hdigits.resolve_right (by simp)), hexponent, ?_⟩
      rw [hcs, ← hunsigned]
  · rintro ⟨sign, mantissa, exponent, hsign, hmantissa, hexponent, rfl⟩
    have hletter (c : Char) (hc : exponent.head? = some c) : c.isDigit = false := by
      obtain rfl | rfl := head_of_exponent hexponent hc <;> rfl
    have hpoint (tail : List Char) : exponent ≠ '.' :: tail := by
      rintro rfl
      exact absurd (head_of_exponent hexponent rfl) (by decide)
    have hstop (whole rest : List Char) (h : whole.all Char.isDigit = true) (hne : whole ≠ []) (c : Char)
        (hc : (whole ++ rest).head? = some c) : c ≠ '+' ∧ c ≠ '-' := by
      obtain ⟨first, whole, rfl⟩ := List.exists_cons_of_ne_nil hne
      obtain rfl : first = c := Option.some.inj hc
      exact not_sign_of_isDigit (List.all_eq_true.mp h first (by simp))
    cases hmantissa with
    | whole h hne =>
      rw [readDecimal?_isSome_eq _ (readSign_append hsign (hstop _ _ h hne)), (digits_append h hletter).1,
        (digits_append h hletter).2, readFraction_of_not hpoint]
      exact ⟨Or.inl hne, hexponent⟩
    | @pointed whole fraction h hfraction hne =>
      have hdot : ∀ c, ('.' :: fraction ++ exponent).head? = some c → c.isDigit = false := by
        rintro c hc
        obtain rfl : '.' = c := Option.some.inj hc
        rfl
      have hfirst : ∀ c, (whole ++ ('.' :: fraction ++ exponent)).head? = some c → c ≠ '+' ∧ c ≠ '-' := by
        intro c hc
        cases whole with
        | nil =>
          obtain rfl : '.' = c := Option.some.inj hc
          decide
        | cons first rest => exact hstop _ _ h (by simp) c hc
      rw [List.append_assoc, readDecimal?_isSome_eq _ (readSign_append hsign hfirst), (digits_append h hdot).1,
        (digits_append h hdot).2, List.cons_append, readFraction, (digits_append hfraction hletter).1,
        (digits_append hfraction hletter).2]
      exact ⟨hne, hexponent⟩

/-! ## What is read -/

/-- The texts of numbers, given those of integers after a radix mark. -/
inductive Literal (integer : List Char → Nat → Prop) : List Char → Prop
  | empty : Literal integer []
  | infinity {sign : List Char} (h : Sign sign) : Literal integer (sign ++ "Infinity".toList)
  | integer {cs : List Char} {n : Nat} (h : integer cs n) : Literal integer cs
  | decimal {cs : List Char} (h : DecimalLiteral cs) : Literal integer cs

theorem isNaN_infinity (negative : Bool) : (infinity negative).isNaN = false :=
  isNaN_ofMagnitude (le_refl _)

theorem isNaN_ofDecimal (negative : Bool) (digits : Nat) (exponent : Int) :
    (ofDecimal negative digits exponent).isNaN = false := by
  unfold ofDecimal
  split
  · exact isNaN_ofMagnitude (Nat.zero_le _)
  · split
    · exact isNaN_infinity negative
    · split
      · exact isNaN_ofMagnitude (Nat.zero_le _)
      · exact isNaN_ofMagnitude (nearestMagnitude_le _ _)

theorem isNaN_getD {value : Option Float} (h : ∀ x, value = some x → x.isNaN = false) :
    (value.getD nan).isNaN = false ↔ value.isSome = true := by
  cases value with
  | none => exact iff_of_false (by rw [Option.getD_none, isNaN_nan]; simp) (by simp)
  | some x => exact iff_of_true (h x rfl) rfl

theorem isNaN_of_readDecimal? {x : Float} (h : readDecimal? cs = some x) : x.isNaN = false := by
  unfold readDecimal? at h
  dsimp only at h
  split at h
  all_goals
    split at h
    · cases h
    · obtain ⟨exponent, -, rfl⟩ := Option.map_eq_some_iff.mp h
      exact isNaN_ofDecimal _ _ _

/-- What is read as an integer after a radix mark. -/
theorem wordLiteral_iff : WordLiteral cs n ↔
    ∃ radix digits, radixMark? cs = some (radix, digits) ∧ readWord? radix digits = some n := by
  simp only [radixMark?_eq_some_iff, readWord?_iff]
  constructor
  · rintro ⟨mark, hmark, sign, digits, hsign, rfl, hdenotes, hlt⟩
    exact ⟨_, _, ⟨mark, hmark, rfl, rfl⟩, sign, digits, hsign, rfl, hdenotes, hlt⟩
  · rintro ⟨radix, rest, ⟨mark, hmark, rfl, rfl⟩, sign, digits, hsign, rfl, hdenotes, hlt⟩
    exact ⟨mark, hmark, sign, digits, hsign, rfl, hdenotes, hlt⟩

/-- A text with a radix mark is no other literal. -/
theorem not_decimalLiteral_of_mark {rest : Nat × List Char} (h : radixMark? cs = some rest) :
    ¬DecimalLiteral cs := by
  rw [← readDecimal?_isSome]
  unfold radixMark? at h
  split at h
  all_goals
    first
    | cases h
      done
    | simp [readDecimal?, readSign, readExponent?, isDigit]

theorem radixMark?_infinity {sign : List Char} (h : Sign sign) : radixMark? (sign ++ "Infinity".toList) = none := by
  cases h <;> decide

theorem isNaN_readTrimmed : (readTrimmed cs).isNaN = false ↔ Literal WordLiteral cs := by
  unfold readTrimmed
  split
  next hempty =>
    obtain rfl : cs = [] := by simpa using hempty
    exact iff_of_true (isNaN_ofMagnitude (Nat.zero_le _)) .empty
  split
  next hinfinity =>
    refine iff_of_true (isNaN_infinity false) ?_
    obtain rfl | rfl := hinfinity
    · exact .infinity .none
    · exact .infinity .plus
  split
  next hinfinity => exact iff_of_true (isNaN_infinity true) (hinfinity ▸ .infinity .minus)
  next hempty hplus hminus =>
    have hnot {sign : List Char} (h : Sign sign) : cs ≠ sign ++ "Infinity".toList := by
      rintro rfl
      cases h with
      | none => exact hplus (Or.inl rfl)
      | plus => exact hplus (Or.inr rfl)
      | minus => exact hminus rfl
    split
    next radix digits hmark =>
      rw [isNaN_getD fun x hx => ?_, Option.isSome_map, Option.isSome_iff_exists]
      · constructor
        · rintro ⟨n, hn⟩
          exact .integer (wordLiteral_iff.mpr ⟨_, _, hmark, hn⟩)
        · intro hliteral
          cases hliteral with
          | empty => exact absurd rfl hempty
          | infinity hsign => exact absurd rfl (hnot hsign)
          | integer h =>
            obtain ⟨_, _, hmark', hword⟩ := wordLiteral_iff.mp h
            obtain ⟨rfl, rfl⟩ := Prod.mk.inj (Option.some.inj (hmark.symm.trans hmark'))
            exact ⟨_, hword⟩
          | decimal h => exact absurd h (not_decimalLiteral_of_mark hmark)
      · obtain ⟨n, -, rfl⟩ := Option.map_eq_some_iff.mp hx
        exact isNaN_ofRatio false n 1
    next hmark =>
      rw [isNaN_getD fun x => isNaN_of_readDecimal?, readDecimal?_isSome]
      constructor
      · exact .decimal
      · intro hliteral
        cases hliteral with
        | empty => exact absurd rfl hempty
        | infinity hsign => exact absurd rfl (hnot hsign)
        | integer h =>
          obtain ⟨_, _, hmark', -⟩ := wordLiteral_iff.mp h
          rw [hmark] at hmark'
          cases hmark'
        | decimal h => exact h

theorem isNearest_ofNat (h : n < 2 ^ 64) : IsNearest n (ofNat n) := by
  have hfinite : nearestMagnitude n 1 < infinityBits := by
    refine nearestMagnitude_lt Nat.one_pos ?_
    have hbound : (2 : ℚ) * n < 2 ^ (65 : Int) := by
      have hcast : ((2 * n : Nat) : ℚ) < (2 ^ 65 : Nat) := Nat.cast_lt.mpr (by omega)
      exact_mod_cast hcast
    rw [Nat.cast_one, div_one]
    exact hbound.trans_le (zpow_le_zpow_right₀ one_le_two (by decide))
  have hnearest : IsNearest (signOf false * ((n : ℚ) / (1 : Nat))) (ofNat n) := isNearest_ofRatio Nat.one_pos hfinite
  rw [signOf, if_neg Bool.false_ne_true, Nat.cast_one, div_one, one_mul] at hnearest
  exact hnearest

theorem readTrimmed_of_wordLiteral (h : WordLiteral cs n) : readTrimmed cs = ofNat n := by
  obtain ⟨radix, digits, hmark, hword⟩ := wordLiteral_iff.mp h
  have hplain : cs ≠ [] ∧ ∀ sign, Sign sign → cs ≠ sign ++ "Infinity".toList := by
    constructor
    · rintro rfl
      cases hmark
    · rintro sign hsign rfl
      rw [radixMark?_infinity hsign] at hmark
      cases hmark
  have hminus : cs ≠ "-Infinity".toList := hplain.2 _ .minus
  have hplus : ¬(cs = "Infinity".toList ∨ cs = "+Infinity".toList) :=
    not_or.mpr ⟨hplain.2 _ .none, hplain.2 _ .plus⟩
  unfold readTrimmed
  rw [if_neg (by simpa using hplain.1), if_neg hplus, if_neg hminus, hmark]
  simp [hword]

/-- **The literals that are read as numbers,** and the integers after a radix mark as the nearest doubles. -/
theorem read_accepts (s : String) :
    ((read s).isNaN = false ↔ ∃ cs, Trimmed s.toList cs ∧ Literal WordLiteral cs) ∧
      ∀ cs n, Trimmed s.toList cs → WordLiteral cs n → IsNearest n (read s) := by
  constructor
  · simp only [trimmed_iff, exists_eq_left']
    exact isNaN_readTrimmed
  · intro cs n htrimmed hword
    obtain rfl := trimmed_iff.mp htrimmed
    rw [read, readTrimmed_of_wordLiteral hword]
    obtain ⟨-, -, -, -, -, -, -, hlt⟩ := hword
    exact isNearest_ofNat hlt

/-- Halfway between two doubles, the integer goes to the even one below it. -/
theorem read_accepts_hexadecimal : WordLiteral "0X20000000000001".toList (2 ^ 53 + 1) ∧
    IsNearest ((2 ^ 53 + 1 : Nat) : ℚ) (read " 0X20000000000001\n") := by
  have hword : WordLiteral "0X20000000000001".toList (2 ^ 53 + 1) :=
    wordLiteral_iff.mpr ⟨16, "20000000000001".toList, by decide, by decide +kernel⟩
  have htrimmed : Trimmed " 0X20000000000001\n".toList "0X20000000000001".toList :=
    trimmed_iff.mpr (by decide +kernel)
  exact ⟨hword, (read_accepts _).2 _ _ htrimmed hword⟩

/-- After a radix mark, integers of more than 64 bits are not read, and a plus sign is. -/
theorem read_departs :
    (RadixLiteral "0x10000000000000000".toList (2 ^ 64) ∧ (read "0x10000000000000000").isNaN = true) ∧
      (read "0x+1F").isNaN = false ∧ ¬∃ cs, Trimmed "0x+1F".toList cs ∧ Literal RadixLiteral cs := by
  have hmark : radixMark? "0x+1F".toList = some (16, "+1F".toList) := by decide
  have htrim : Text.trimBlank "0x+1F".toList = "0x+1F".toList := by decide +kernel
  refine ⟨⟨⟨("0x", 16), by simp [radixMarks], "10000000000000000".toList, rfl, ?_⟩, by decide +kernel⟩,
    by decide +kernel, ?_⟩
  · exact denotes_iff.mpr ⟨by decide, by decide +kernel⟩
  · rintro ⟨cs, htrimmed, hliteral⟩
    obtain rfl := (trimmed_iff.mp htrimmed).symm.trans htrim
    generalize "0x+1F".toList = cs at hmark hliteral
    cases hliteral with
    | empty => cases hmark
    | infinity hsign =>
      rw [radixMark?_infinity hsign] at hmark
      cases hmark
    | integer h =>
      obtain ⟨mark, hmem, digits, hcs, hdenotes⟩ := h
      rw [radixMark?_eq_some_iff.mpr ⟨mark, hmem, rfl, hcs⟩] at hmark
      obtain ⟨-, rfl⟩ := Prod.mk.inj (Option.some.inj hmark)
      exact not_denotes_plus hdenotes
    | decimal h => exact not_decimalLiteral_of_mark hmark h

end ScriptCore.Numeric

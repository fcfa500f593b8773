import ScriptCore.Numeric.Shortest
import ScriptCore.Text.Blank

/-!
# Text as a number

What the numeric conversion accepts: nothing but white space (zero), `Infinity` with an optional sign,
an unsigned integer of at most 64 bits after a radix mark, and decimal literals. Everything else is
not a number.
-/
namespace ScriptCore.Numeric

def isDigit (c : Char) : Bool := '0' ≤ c && c ≤ '9'

/-- The value of a digit in radixes up to 36, letters in either case. -/
def digitValue? (c : Char) : Option Nat :=
  if isDigit c then some (c.toNat - '0'.toNat)
  else if 'a' ≤ c && c ≤ 'z' then some (c.toNat - 'a'.toNat + 10)
  else if 'A' ≤ c && c ≤ 'Z' then some (c.toNat - 'A'.toNat + 10)
  else none

/-- The number that a list of digits denotes after `acc`. -/
def digitsValue? (radix : Nat) : Nat → List Char → Option Nat
  | acc, [] => some acc
  | acc, c :: cs =>
    match digitValue? c with
    | some d => if d < radix then digitsValue? radix (acc * radix + d) cs else none
    | none => none

/-- An unsigned integer in the given radix that fits 64 bits; one plus sign may precede its digits. -/
def readWord? (radix : Nat) (cs : List Char) : Option Nat :=
  let digits := match cs with
    | '+' :: rest => rest
    | _ => cs
  if digits.isEmpty then none
  else (digitsValue? radix 0 digits).filter (· < Nat.pow 2 64)

/-- The radix that a literal announces, and the characters after the announcement. -/
def radixMark? : List Char → Option (Nat × List Char)
  | '0' :: 'x' :: rest | '0' :: 'X' :: rest => some (16, rest)
  | '0' :: 'o' :: rest | '0' :: 'O' :: rest => some (8, rest)
  | '0' :: 'b' :: rest | '0' :: 'B' :: rest => some (2, rest)
  | _ => none

/-- An optional sign, `true` for minus. -/
def readSign : List Char → Bool × List Char
  | '+' :: rest => (false, rest)
  | '-' :: rest => (true, rest)
  | cs => (false, cs)

/-- The value of a list of decimal digits. -/
def decimalValue (cs : List Char) : Nat :=
  cs.foldl (fun acc c => acc * 10 + (c.toNat - '0'.toNat)) 0

/-- An exponent part: nothing, or `e` or `E`, an optional sign and one or more digits. -/
def readExponent? : List Char → Option Int
  | [] => some 0
  | c :: cs =>
    if c = 'e' ∨ c = 'E' then
      let (negative, digits) := readSign cs
      if digits.isEmpty || !digits.all isDigit then none
      else some (if negative then -(decimalValue digits : Int) else decimalValue digits)
    else none

/-- The nearest double to `digits * 10 ^ exponent`. Outside a wide margin around the doubles' range the
result is settled without computing the power. -/
def ofDecimal (negative : Bool) (digits : Nat) (exponent : Int) : Float :=
  if digits = 0 then ofMagnitude negative 0
  else if 400 < exponent then infinity negative
  else if exponent + digits.log2 < -400 then ofMagnitude negative 0
  else ofMagnitude negative (Decimal.magnitude ⟨digits, exponent⟩)

/-- A decimal literal: an optional sign, digits with an optional point and at least one digit on either
side of it, and an optional exponent part. -/
def readDecimal? (cs : List Char) : Option Float :=
  let (negative, unsigned) := readSign cs
  let whole := unsigned.takeWhile isDigit
  let afterWhole := unsigned.dropWhile isDigit
  let (fraction, afterFraction) := match afterWhole with
    | '.' :: rest => (rest.takeWhile isDigit, rest.dropWhile isDigit)
    | _ => ([], afterWhole)
  if whole.isEmpty && fraction.isEmpty then none
  else
    (readExponent? afterFraction).map fun exponent =>
      ofDecimal negative (decimalValue (whole ++ fraction)) (exponent - fraction.length)

/-- The number of a text that has no white space around it. -/
def readTrimmed (cs : List Char) : Float :=
  if cs.isEmpty then ofMagnitude false 0
  else if cs = "Infinity".toList ∨ cs = "+Infinity".toList then infinity false
  else if cs = "-Infinity".toList then infinity true
  else
    match radixMark? cs with
    | some (radix, digits) => ((readWord? radix digits).map ofNat).getD nan
    | none => (readDecimal? cs).getD nan

def read (s : String) : Float := readTrimmed (Text.trimBlank s.toList)

end ScriptCore.Numeric

import ScriptCore.Numeric.Shortest

/-!
# Numbers as text

A number is written with its shortest digits: positionally while the leading digit stands between the
sixth place after the point and the twenty-first before it, else as a mantissa and a signed exponent.
Both zeros are written `0`.
-/
namespace ScriptCore.Numeric

def naturalDigits (n : Nat) : List Char := Nat.toDigits 10 n

namespace Decimal

/-- The place of the leading digit: `0` for units, `-1` for tenths. -/
def leadingPlace (d : Decimal) : Int := (naturalDigits d.digits).length - 1 + d.exponent

/-- The decimal written out in full. -/
def positional (d : Decimal) : List Char :=
  let digits := naturalDigits d.digits
  if 0 ≤ d.exponent then digits ++ List.replicate d.exponent.toNat '0'
  else
    let places := (-d.exponent).toNat
    if places < digits.length then
      digits.take (digits.length - places) ++ '.' :: digits.drop (digits.length - places)
    else ['0', '.'] ++ List.replicate (places - digits.length) '0' ++ digits

/-- The first digit, the others after a point, and the exponent with its sign. -/
def scientific (d : Decimal) : List Char :=
  let mantissa :=
    match naturalDigits d.digits with
    | first :: second :: rest => first :: '.' :: second :: rest
    | digits => digits
  let place := d.leadingPlace
  mantissa ++ 'e' :: (if place < 0 then '-' else '+') :: naturalDigits place.natAbs

end Decimal

def withSign (negative : Bool) (digits : List Char) : List Char :=
  if negative then '-' :: digits else digits

def format (x : Float) : String :=
  match parts x with
  | .nan => "NaN"
  | .infinity negative => String.ofList (withSign negative "Infinity".toList)
  | .finite negative mantissa exponent =>
    if mantissa = 0 then "0"
    else
      let d := shortest mantissa exponent
      let digits :=
        if -6 ≤ d.leadingPlace ∧ d.leadingPlace < 21 then d.positional else d.scientific
      String.ofList (withSign negative digits)

/-- The text that a literal for a finite number is written with: always positional, and with the sign
of a negative zero. There is no literal for infinities and not-a-number. -/
def literalText? (x : Float) : Option String :=
  match parts x with
  | .finite negative mantissa exponent =>
    let digits := if mantissa = 0 then ['0'] else (shortest mantissa exponent).positional
    some (String.ofList (withSign negative digits))
  | _ => none

end ScriptCore.Numeric

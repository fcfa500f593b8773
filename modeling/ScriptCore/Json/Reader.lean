import ScriptCore.Json.Basic
import ScriptCore.Numeric.Reader

/-!
# Reading JSON

A strict reader: no trailing commas, comments, byte order mark, control characters in strings, lone
surrogates, leading zeros or numbers beyond the doubles. Of members with one name the last value
counts, at the place of the first. The depth of nesting may be limited.

Each step either consumes a character or ends, so a step count linear in the length of the text is
enough for every text; `parse` supplies it.
-/
namespace ScriptCore.Json

/-- Why a text is not read: the reader does not say more, since nothing depends on it. -/
inductive ReadError where
  | notJson
  deriving DecidableEq, Repr

/-- A value and the characters after it. -/
abbrev Reading (α : Type) := Except ReadError (α × List Char)

def isSpace (c : Char) : Bool := c = ' ' || c = '\n' || c = '\t' || c = '\r'

/-- The text from its first character that is not white space. -/
def skipSpace (cs : List Char) : List Char := cs.dropWhile isSpace

/-- The code unit of four hexadecimal digits. -/
def unit? (a b c d : Char) : Option Nat := Numeric.digitsValue? 16 0 [a, b, c, d]

/-- A first unit of a surrogate pair. -/
def isHigh (unit : Nat) : Bool := 0xD800 ≤ unit && unit ≤ 0xDBFF

/-- A second unit of a surrogate pair. -/
def isLow (unit : Nat) : Bool := 0xDC00 ≤ unit && unit ≤ 0xDFFF

/-- The character of a surrogate pair. -/
def paired (high low : Nat) : Char :=
  Char.ofNat (0x10000 + (high - 0xD800) * 0x400 + (low - 0xDC00))

/-- What a one-letter escape stands for. -/
def letterEscape? (c : Char) : Option Char :=
  if c = '"' ∨ c = '\\' ∨ c = '/' then some c
  else if c = 'b' then some '\x08'
  else if c = 'f' then some '\x0c'
  else if c = 'n' then some '\n'
  else if c = 'r' then some '\r'
  else if c = 't' then some '\t'
  else none

/-- The rest of a string after its opening quote; `acc` holds the characters read, last first. A
character beyond the code units is escaped as a surrogate pair; no surrogate stands alone. -/
def readString (acc : List Char) : List Char → Reading String
  | [] => .error .notJson
  | '"' :: rest => .ok (String.ofList acc.reverse, rest)
  | '\\' :: 'u' :: a :: b :: c :: d :: rest =>
    match unit? a b c d with
    | none => .error .notJson
    | some unit =>
      if isHigh unit then
        match rest with
        | '\\' :: 'u' :: e :: f :: g :: h :: rest =>
          match (unit? e f g h).filter isLow with
          | some low => readString (paired unit low :: acc) rest
          | none => .error .notJson
        | _ => .error .notJson
      else if isLow unit then .error .notJson
      else readString (Char.ofNat unit :: acc) rest
  | '\\' :: letter :: rest =>
    match letterEscape? letter with
    | some c => readString (c :: acc) rest
    | none => .error .notJson
  | c :: rest =>
    if c.toNat < 0x20 ∨ c = '\\' then .error .notJson else readString (c :: acc) rest

/-- The digits of a number's whole part: no leading zero before another digit. -/
def readWhole (cs : List Char) : Reading (List Char) :=
  match cs with
  | '0' :: rest =>
    match rest with
    | c :: _ => if Numeric.isDigit c then .error .notJson else .ok (['0'], rest)
    | [] => .ok (['0'], rest)
  | _ =>
    let digits := cs.takeWhile Numeric.isDigit
    if digits.isEmpty then .error .notJson else .ok (digits, cs.dropWhile Numeric.isDigit)

/-- The digits after a point, if there is one. -/
def readFraction (cs : List Char) : Reading (List Char) :=
  match cs with
  | '.' :: rest =>
    let digits := rest.takeWhile Numeric.isDigit
    if digits.isEmpty then .error .notJson else .ok (digits, rest.dropWhile Numeric.isDigit)
  | _ => .ok ([], cs)

/-- The value of an exponent part, zero if there is none. -/
def readExponent (cs : List Char) : Reading Int :=
  match cs with
  | c :: rest =>
    if c = 'e' ∨ c = 'E' then
      let (negative, digits) := Numeric.readSign rest
      let power := digits.takeWhile Numeric.isDigit
      if power.isEmpty then .error .notJson
      else
        let value : Int := Numeric.decimalValue power
        .ok (if negative then -value else value, digits.dropWhile Numeric.isDigit)
    else .ok (0, cs)
  | [] => .ok (0, cs)

/-- Whether a number goes on after its whole part. -/
def continues : List Char → Bool
  | c :: _ => c = '.' || c = 'e' || c = 'E'
  | [] => false

/-- The integer of the given sign and magnitude if it fits 64 bits, without a sign or with one. Negative
zero is no integer. -/
def integer? (negative : Bool) (magnitude : Nat) : Option Int :=
  if negative then
    if 0 < magnitude ∧ magnitude ≤ 0x8000000000000000 then some (-magnitude) else none
  else if magnitude ≤ 0xFFFFFFFFFFFFFFFF then some magnitude
  else none

/-- A number; one that overflows the doubles is refused. -/
def readNumber (cs : List Char) : Except ReadError (Json × List Char) := do
  let (negative, cs) := match cs with
    | '-' :: rest => (true, rest)
    | _ => (false, cs)
  let (whole, cs) ← readWhole cs
  let exact := if continues cs then none else integer? negative (Numeric.decimalValue whole)
  match exact with
  | some value => .ok (.integer value, cs)
  | none =>
    let (fraction, cs) ← readFraction cs
    let (exponent, cs) ← readExponent cs
    let value := Numeric.ofDecimal negative (Numeric.decimalValue (whole ++ fraction))
      (exponent - fraction.length)
    if value.isInf then .error .notJson else .ok (.number value, cs)

mutual

/-- A value. `depth` is how many more levels of nesting are allowed, if there is a limit. -/
def readValue : Nat → Option Nat → List Char → Reading Json
  | 0, _, _ => .error .notJson
  | fuel + 1, depth, cs =>
    match skipSpace cs with
    | 'n' :: 'u' :: 'l' :: 'l' :: rest => .ok (.null, rest)
    | 't' :: 'r' :: 'u' :: 'e' :: rest => .ok (.bool true, rest)
    | 'f' :: 'a' :: 'l' :: 's' :: 'e' :: rest => .ok (.bool false, rest)
    | '"' :: rest =>
      match readString [] rest with
      | .ok (value, rest) => .ok (.string value, rest)
      | .error e => .error e
    | '[' :: rest =>
      if depth = some 0 then .error .notJson
      else
        match skipSpace rest with
        | ']' :: rest => .ok (.array [], rest)
        | rest => readItems fuel (depth.map (· - 1)) [] rest
    | '\x7b' :: rest =>
      if depth = some 0 then .error .notJson
      else
        match skipSpace rest with
        | '\x7d' :: rest => .ok (.object [], rest)
        | rest => readMembers fuel (depth.map (· - 1)) [] rest
    | rest => readNumber rest

/-- The items of an array up to its end; `acc` holds the items read, last first. -/
def readItems : Nat → Option Nat → List Json → List Char → Reading Json
  | 0, _, _, _ => .error .notJson
  | fuel + 1, depth, acc, cs =>
    match readValue fuel depth cs with
    | .error e => .error e
    | .ok (item, rest) =>
      match skipSpace rest with
      | ',' :: rest => readItems fuel depth (item :: acc) rest
      | ']' :: rest => .ok (.array (item :: acc).reverse, rest)
      | _ => .error .notJson

/-- The members of an object up to its end; `acc` holds the members read, in order. -/
def readMembers : Nat → Option Nat → List (String × Json) → List Char → Reading Json
  | 0, _, _, _ => .error .notJson
  | fuel + 1, depth, acc, cs =>
    match skipSpace cs with
    | '"' :: rest =>
      match readString [] rest with
      | .error e => .error e
      | .ok (name, rest) =>
        match skipSpace rest with
        | ':' :: rest =>
          match readValue fuel depth rest with
          | .error e => .error e
          | .ok (value, rest) =>
            match skipSpace rest with
            | ',' :: rest => readMembers fuel depth (insertEntry name value acc) rest
            | '\x7d' :: rest => .ok (.object (insertEntry name value acc), rest)
            | _ => .error .notJson
        | _ => .error .notJson
    | _ => .error .notJson

end

/-- The value that a text holds, with nothing but white space after it. -/
def parse (depth : Option Nat) (text : String) : Except ReadError Json :=
  let cs := text.toList
  match readValue (2 * cs.length + 1) depth cs with
  | .ok (value, rest) => if (skipSpace rest).isEmpty then .ok value else .error .notJson
  | .error e => .error e

/-- The deepest nesting of arrays and objects in a text that is to become a syntax tree. -/
def textDepth : Nat := 127

end ScriptCore.Json

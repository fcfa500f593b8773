import ScriptCore.Json.Basic
import ScriptCore.Numeric.Printer

/-!
# Writing JSON

The compact text of a value, without white space. Strings escape the quote, the backslash and the
control characters; numbers are written as elsewhere (`Numeric.format`).
-/
namespace ScriptCore.Json

/-- A control character by its code point, in four hexadecimal digits. -/
def unitText (c : Char) : String :=
  let digits := Nat.toDigits 16 c.toNat
  "\\u" ++ String.ofList (List.replicate (4 - digits.length) '0' ++ digits)

def pushChar (out : String) (c : Char) : String :=
  if c = '"' then out ++ "\\\""
  else if c = '\\' then out ++ "\\\\"
  else if c.toNat < 0x20 then out ++ unitText c
  else out.push c

def pushString (out : String) (s : String) : String :=
  (s.foldl pushChar (out.push '"')).push '"'

mutual

def pushValue (out : String) : Json → String
  | .null => out ++ "null"
  | .bool value => out ++ (if value then "true" else "false")
  | .integer value => out ++ toString value
  | .number value => out ++ Numeric.format value
  | .string value => pushString out value
  | .array items => (pushItems (out.push '[') items).push ']'
  | .object members => (pushMembers (out.push '\x7b') members).push '\x7d'

def pushItems (out : String) : List Json → String
  | [] => out
  | [item] => pushValue out item
  | item :: rest => pushItems ((pushValue out item).push ',') rest

def pushMembers (out : String) : List (String × Json) → String
  | [] => out
  | [(name, value)] => pushValue ((pushString out name).push ':') value
  | (name, value) :: rest =>
    pushMembers ((pushValue ((pushString out name).push ':') value).push ',') rest

end

/-- The compact text of a value. -/
def render (j : Json) : String := pushValue "" j

end ScriptCore.Json

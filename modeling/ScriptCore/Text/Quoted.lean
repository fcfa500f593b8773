import ScriptCore.Text.Printable

/-!
# Quoted text

How a debugging text writes a string: between double quotes, with the quote, the backslash and the
four usual controls escaped by a letter, and every other character that cannot stand for itself
written by its code point in lower case hexadecimal. An apostrophe stays as it is.
-/
namespace ScriptCore.Text

/-- A character by its code point, between braces. -/
def byCodePoint (c : Char) : List Char :=
  ['\\', 'u', '\x7b'] ++ Nat.toDigits 16 c.toNat ++ ['\x7d']

def quoteChar (c : Char) : List Char :=
  if c = '"' then ['\\', '"']
  else if c = '\\' then ['\\', '\\']
  else if c = '\n' then ['\\', 'n']
  else if c = '\r' then ['\\', 'r']
  else if c = '\t' then ['\\', 't']
  else if c.toNat = 0 then ['\\', '0']
  else if isPrintable c then [c]
  else byCodePoint c

/-- A string between double quotes. -/
def quoted (s : String) : String :=
  String.ofList (['"'] ++ s.toList.flatMap quoteChar ++ ['"'])

end ScriptCore.Text

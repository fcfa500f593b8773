/-!
# Characters by index

The character at an index of a string. Strings are stored in one to four bytes a character. Where every
character takes one byte, an index is a position; else the way to it leads over all characters before,
without making a list of them.
-/
namespace ScriptCore.Text

/-- The character that lies `index` places after a position. -/
def charFrom (s : String) : Nat → String.Pos.Raw → Option Char
  | index, p =>
    if p.atEnd s then none
    else
      match index with
      | 0 => some (p.get s)
      | index + 1 => charFrom s index (p.next s)

def charAt? (s : String) (index : Nat) : Option Char :=
  if s.utf8ByteSize = s.length then
    if index < s.length then some (String.Pos.Raw.get s ⟨index⟩) else none
  else charFrom s index 0

end ScriptCore.Text

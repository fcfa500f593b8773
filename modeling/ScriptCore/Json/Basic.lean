import ScriptCore.Data.Entries

/-!
# JSON values

Values of the exchange format that syntax trees arrive in. Members of an object keep their written
order. A number written as an integer of 64 bits, signed or unsigned, is kept exactly; any other number
is the double nearest to what was written.
-/
namespace ScriptCore

inductive Json where
  | null
  | bool (value : Bool)
  | integer (value : Int)
  | number (value : Float)
  | string (value : String)
  | array (items : List Json)
  | object (members : List (String × Json))
  deriving Inhabited

namespace Json

def member? (name : String) : Json → Option Json
  | .object members => lookupEntry name members
  | _ => none

end Json

end ScriptCore

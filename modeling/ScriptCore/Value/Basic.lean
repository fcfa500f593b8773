/-!
# Values

The values of the language. Numbers and strings are held directly; arrays, objects and closures are
named by their place in a `World`, which is their identity; native functions are named by the host.
-/
namespace ScriptCore

/-- The place of an array among the arrays of a world. -/
abbrev ArrayId := Nat

abbrev ObjectId := Nat

abbrev ClosureId := Nat

/-- The place of a scope in a scope graph. -/
abbrev ScopeId := Nat

inductive Value where
  /-- a declared but unset cell, and the result of reading what is not there -/
  | undefined
  | null
  | bool (value : Bool)
  | number (value : Float)
  | str (value : String)
  | array (id : ArrayId)
  | object (id : ObjectId)
  | closure (id : ClosureId)
  /-- a function of the host -/
  | native (name : String)
  deriving Inhabited

namespace Value

/-- The result of the operator `typeof`. -/
def typeOf : Value → String
  | .undefined => "undefined"
  | .bool _ => "boolean"
  | .number _ => "number"
  | .str _ => "string"
  | .null | .array _ | .object _ => "object"
  | .closure _ | .native _ => "function"

/-- The name of the value's type in error messages. -/
def typeName : Value → String
  | .undefined => "undefined"
  | .null => "null"
  | .bool _ => "boolean"
  | .number _ => "number"
  | .str _ => "string"
  | .array _ => "array"
  | .object _ => "object"
  | .closure _ | .native _ => "function"

def isUndefined : Value → Bool
  | .undefined => true
  | _ => false

/-- `undefined` or `null`. -/
def isNullish : Value → Bool
  | .undefined | .null => true
  | _ => false

def isCallable : Value → Bool
  | .closure _ | .native _ => true
  | _ => false

/-- The values that are compared by identity. -/
def isComposite : Value → Bool
  | .array _ | .object _ | .closure _ | .native _ => true
  | _ => false

/-- The truth value of a value as a condition. -/
def isTruthy : Value → Bool
  | .undefined | .null => false
  | .bool b => b
  | .number n => !(n == 0.0) && !n.isNaN
  | .str s => !s.isEmpty
  | _ => true

def asNumber? : Value → Option Float
  | .number n => some n
  | _ => none

def asText? : Value → Option String
  | .str s => some s
  | _ => none

/-- Strict equality: numbers as numbers, other primitives by content, the rest by identity. -/
def strictEquals : Value → Value → Bool
  | .undefined, .undefined | .null, .null => true
  | .bool a, .bool b => a == b
  | .number a, .number b => a == b
  | .str a, .str b => a == b
  | .array a, .array b => a == b
  | .object a, .object b => a == b
  | .closure a, .closure b => a == b
  | .native a, .native b => a == b
  | _, _ => false

end Value

end ScriptCore

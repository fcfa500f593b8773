import ScriptCore.Text.Index
import ScriptCore.Value.Text

/-!
# Properties

| base | readable properties |
|---|---|
| object | its fields |
| array | indices and `length` |
| string | indices, one character each, and `length` |
| closure | `name` and `length`, the declared arity |
| native function | `name` |

Any other property of these, and every property of other primitives, reads as `undefined`. Reading or
writing a property of `undefined` or `null` fails.

An array cannot be read while its length is being set. So setting it to a value whose number is read
off that very array is not possible at all: there is neither a new length nor an error to report. The
same goes for a length that no vector can have.
-/
namespace ScriptCore

/-- The array index that a key denotes: a canonical decimal numeral below `2 ^ 32 - 1`. -/
def arrayIndex? (key : String) : Option Nat :=
  let cs := key.toList
  if cs.isEmpty || !cs.all Numeric.isDigit then none
  else
    let index := Numeric.decimalValue cs
    if index < Nat.pow 2 32 - 1 ∧ Numeric.naturalDigits index = cs then some index else none

/-- The most values that a vector can have: 32 bytes each, of fewer than `2 ^ 63`. -/
def maxElements : Nat := Nat.pow 2 58 - 1

/-- The values of an array cut or filled up with `undefined` to a length. -/
def resized (items : Array Value) (length : Nat) : Array Value :=
  if length ≤ items.size then items.shrink length
  else items ++ Array.replicate (length - items.size) .undefined

def characters (s : String) : List Value := s.toList.map fun c => .str (String.singleton c)

/-- The decimal numerals of the numbers below a bound. -/
def indexKeys (count : Nat) : List String := (List.range count).map toString

namespace World

variable (w : World)

def getProperty (base : Value) (key : String) : Except Cause Value :=
  match base with
  | .undefined | .null => .error (cannotRead key base)
  | .object id => .ok (((w.object id).get? key).getD .undefined)
  | .array id =>
    if key = "length" then .ok (.number (Numeric.ofNat (w.array id).size))
    else .ok (((arrayIndex? key).bind fun i => (w.array id)[i]?).getD .undefined)
  | .str s =>
    if key = "length" then .ok (.number (Numeric.ofNat s.length))
    else
      .ok (((arrayIndex? key).bind fun i => Text.charAt? s i).elim .undefined fun c =>
        .str (String.singleton c))
  | .closure id =>
    match w.closure? id with
    | some closure =>
      if key = "name" then .ok (.str closure.displayName)
      else if key = "length" then .ok (.number (Numeric.ofNat closure.arity))
      else .ok .undefined
    | none => .ok .undefined
  | .native name => .ok (if key = "name" then .str name else .undefined)
  | .bool _ | .number _ => .ok .undefined

/-- What a write to a property does. -/
inductive Write where
  | refused (cause : Cause)
  /-- a length that has to be read off the array it is set for -/
  | circular
  /-- a length that no vector can have -/
  | overlong
  | field (id : ObjectId)
  | length (id : ArrayId) (length : Nat)
  | element (id : ArrayId) (index : Nat)
  /-- writes to primitives and functions, and to other keys of arrays -/
  | ignored

/-- Decide what a write does. Arrays never grow beyond `maxLength` elements by their indices. A length is
compared with `maxLength` as a double; the cast to a word that follows is exact up to `maxElements`. -/
def writeOf (base : Value) (key : String) (value : Value) (maxLength : Nat) : Write :=
  match base with
  | .undefined | .null => .refused (cannotRead key base)
  | .object id => .field id
  | .array id =>
    if key = "length" then
      if w.reads value id then .circular
      else match (Numeric.toNat? (w.number value)).filter (· ≤ Numeric.rounded maxLength) with
      | some length => if length ≤ maxElements then .length id length else .overlong
      | none => .refused (.invalidArrayLength (w.text value))
    else
      match arrayIndex? key with
      | some index =>
        if index + 1 ≤ maxLength then .element id index
        else .refused (.invalidArrayLength key)
      | none => .ignored
  | _ => .ignored

def applyWrite (write : Write) (key : String) (value : Value) : World :=
  match write with
  | .refused _ | .circular | .overlong | .ignored => w
  | .field id => w.modifyObject id fun fields => fields.insert key value
  | .length id length => w.modifyArray id fun items => resized items length
  | .element id index =>
    w.modifyArray id fun items =>
      (if index < items.size then items else resized items (index + 1)).setIfInBounds index value

/-- Write a property. A refused write changes nothing; a circular or overlong one comes to no result. -/
def setProperty? (base : Value) (key : String) (value : Value) (maxLength : Nat) :
    Option (Except Cause Unit × World) :=
  match w.writeOf base key value maxLength with
  | .circular | .overlong => none
  | .refused cause => some (.error cause, w)
  | write => some (.ok (), w.applyWrite write key value)

/-- Delete a property: an object loses the field, an array keeps its length and holds `undefined` at
the index. Tells whether the property is gone. -/
def deleteProperty (base : Value) (key : String) : Except Cause Bool × World :=
  match base with
  | .undefined | .null => (.error (cannotRead key base), w)
  | .object id => (.ok true, w.modifyObject id fun fields => fields.erase key)
  | .array id =>
    let w := match arrayIndex? key with
      | some index => w.modifyArray id fun items => items.setIfInBounds index .undefined
      | none => w
    (.ok (key != "length"), w)
  | _ => (.ok true, w)

/-- The elements of an array or the characters of a string, as they are now. -/
def iterate (value : Value) : Except Cause (List Value) :=
  match value with
  | .array id => .ok (w.array id).toList
  | .str s => .ok (characters s)
  | other => .error (.notIterable other.typeName)

/-- The keys to enumerate: field names of an object, indices of an array or string. -/
def enumerableKeys (value : Value) : List String :=
  match value with
  | .object id => (w.object id).keys
  | .array id => indexKeys (w.array id).size
  | .str s => indexKeys s.length
  | _ => []

/-- Whether a value has a property, as the operator `in` asks it. An array is asked by any numeral of
an index, not only by the canonical one. -/
def hasProperty (target : Value) (key : String) : Except Cause Bool :=
  match target with
  | .object id => .ok ((w.object id).contains key)
  | .array id =>
    .ok (key == "length" ||
      ((Numeric.readWord? 10 key.toList).any fun index => index < (w.array id).size))
  | .closure _ | .native _ => .ok (key == "name" || key == "length")
  | other =>
    .error (.custom ("cannot use 'in' to search for '" ++ key ++ "' in " ++ other.typeName))

/-! ## What properties do not reach

Arrays and objects have properties that can be written; scopes and closures do not. -/

/-- A write changes arrays and objects only. -/
theorem applyWrite_frame (write : Write) (key : String) (value : Value) :
    (w.applyWrite write key value).scopes = w.scopes ∧
      (w.applyWrite write key value).closures = w.closures := by
  cases write <;> exact ⟨rfl, rfl⟩

variable {base : Value} {key : String} {value : Value} {maxLength : Nat} {result : Except Cause Unit × World}

/-- A write that comes to a result was refused, or is carried out. -/
theorem setProperty?_cases (h : w.setProperty? base key value maxLength = some result) :
    (∃ cause, w.writeOf base key value maxLength = .refused cause ∧ result = (.error cause, w)) ∨
      result = (.ok (), w.applyWrite (w.writeOf base key value maxLength) key value) := by
  rw [setProperty?] at h
  split at h
  · cases h
  · cases h
  next cause hcause => exact Or.inl ⟨cause, hcause, (Option.some.inj h).symm⟩
  · exact Or.inr (Option.some.inj h).symm

theorem setProperty?_frame (h : w.setProperty? base key value maxLength = some result) :
    result.2.scopes = w.scopes ∧ result.2.closures = w.closures := by
  obtain ⟨cause, -, rfl⟩ | rfl := w.setProperty?_cases h
  · exact ⟨rfl, rfl⟩
  · exact w.applyWrite_frame _ key value

theorem deleteProperty_frame (base : Value) (key : String) :
    (w.deleteProperty base key).2.scopes = w.scopes ∧
      (w.deleteProperty base key).2.closures = w.closures := by
  cases base with
  | array id =>
    rw [deleteProperty]
    simp only
    split <;> exact ⟨rfl, rfl⟩
  | _ => exact ⟨rfl, rfl⟩

end World

end ScriptCore

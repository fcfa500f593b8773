import ScriptCore.Value.Opening
import ScriptCore.Numeric.Printer
import ScriptCore.Numeric.Reader

/-!
# Conversions between values

The text of a value, the number of a value, and loose equality, which compares through them. An array
is written as its elements joined by commas, where an array that is already open on the way down is
written as nothing; so joining ends on every world, however its arrays contain each other.
-/
namespace ScriptCore.World

variable (w : World)

/-- How a function is written. -/
def functionText (name body : String) : String :=
  "function " ++ name ++ "() \x7b [" ++ body ++ "] \x7d"

/-- The text of a value that is no array. -/
def plainText : Value → String
  | .undefined => "undefined"
  | .null => "null"
  | .bool b => if b then "true" else "false"
  | .number n => Numeric.format n
  | .str s => s
  | .array _ => ""
  | .object _ => "[object Object]"
  | .closure id => functionText ((w.closure? id).elim "" Closure.displayName) "code"
  | .native name => functionText name "native code"

/-- The text of an array element; the state holds the arrays that are open. Each level opens another array of
the world, so as many levels as there are arrays are enough. -/
def joining : Nat → Value → StateM Opened String
  | fuel, value =>
    match value with
    | .array id => (Opened.guard id).write "" <|
      match fuel with
      | 0 => pure ""
      | fuel + 1 => do
        let texts ← (w.array id).toList.mapM (joining fuel)
        pure (",".intercalate texts)
    | .undefined | .null => pure ""
    | value => pure (w.plainText value)

/-- The text of an array element, inside the arrays of `opened`. -/
def joined (fuel : Nat) (opened : Opened) (value : Value) : String := (w.joining fuel value opened).1

def text (value : Value) : String :=
  match value with
  | .array _ => w.joined w.arrays.size ∅ value
  | value => w.plainText value

/-- Whether the text of a value, inside the arrays of `opened`, is read off the array `target`. -/
def readsWithin (target : ArrayId) : Nat → Opened → Value → Bool
  | fuel, opened, value =>
    match value with
    | .array id =>
      if id = target then true
      else if opened.contains id then false
      else
        match fuel with
        | 0 => false
        | fuel + 1 =>
          let opened := opened.insert id
          (w.array id).toList.any (readsWithin target fuel opened)
    | _ => false

/-- Whether the text of a value is read off an array: the value is that array, or holds it inside other
arrays. -/
def reads (value : Value) (target : ArrayId) : Bool := w.readsWithin target w.arrays.size ∅ value

def number : Value → Float
  | .undefined => Numeric.nan
  | .null => Numeric.ofNat 0
  | .bool b => Numeric.ofNat (if b then 1 else 0)
  | .number n => n
  | .str s => Numeric.read s
  | value => Numeric.read (w.text value)

def key (value : Value) : String := w.text value

/-- Composites become their text; other values stay. -/
def primitive (value : Value) : Value :=
  if value.isComposite then .str (w.text value) else value

/-- Loose equality: `undefined` and `null` equal each other and nothing else, two composites compare by
identity, two texts as texts, and everything else as numbers after composites became texts. -/
def looseEquals (a b : Value) : Bool :=
  if a.isNullish || b.isNullish then a.isNullish && b.isNullish
  else if a.isComposite && b.isComposite then a.strictEquals b
  else
    match w.primitive a, w.primitive b with
    | .str s, .str t => s == t
    | a, b => w.number a == w.number b

/-- The error of a thrown value that nothing caught. -/
def uncaught (value : Value) : EvalError :=
  { cause := .uncaughtException (w.text value), thrown := some value }

/-- An abrupt end that nothing received, as an error. -/
def errorOf : Abrupt → EvalError
  | .failure error => error
  | .threw value => w.uncaught value
  | .returned _ => .of (.illegalControlFlow "return")
  | .broke => .of (.illegalControlFlow "break")
  | .continued => .of (.illegalControlFlow "continue")

end ScriptCore.World

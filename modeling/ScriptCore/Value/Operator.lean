import ScriptCore.Value.Property
import ScriptCore.Numeric.Remainder
import ScriptCore.Numeric.Word

/-!
# Operators

Operators on evaluated operands. `+` joins texts if, after composites became texts, either side is
one, and adds numbers otherwise; relations compare two texts by code point and everything else as
numbers; bitwise operators work on 32-bit words.
-/
namespace ScriptCore.World

variable (w : World)

/-- Addition and concatenation. -/
def add (left right : Value) : Value :=
  match w.primitive left, w.primitive right with
  | .str s, right => .str (s ++ w.text right)
  | left, .str t => .str (w.text left ++ t)
  | left, right => .number (w.number left + w.number right)

/-- The order of two numbers, if both are numbers. -/
def compareNumbers (x y : Float) : Option Ordering :=
  if x < y then some .lt
  else if y < x then some .gt
  else if x == y then some .eq
  else none

/-- The order of two values; there is none if a side converts to not-a-number. -/
def compare? (left right : Value) : Option Ordering :=
  match w.primitive left, w.primitive right with
  | .str s, .str t => some (if s < t then .lt else if t < s then .gt else .eq)
  | left, right => compareNumbers (w.number left) (w.number right)

/-- An operator on two signed words. -/
def wordOperator (op : BitVec 32 → BitVec 32 → BitVec 32) (left right : Value) : Value :=
  .number (Numeric.ofSignedWord
    (op (Numeric.toWord (w.number left)) (Numeric.toWord (w.number right))))

/-- The unsigned right shift. -/
def shiftRightUnsigned (left right : Value) : Value :=
  .number (Numeric.ofUnsignedWord
    (Numeric.toWord (w.number left) >>> Numeric.shiftCount (Numeric.toWord (w.number right))))

def binary (op : String) (left right : Value) : Except Cause Value :=
  match op with
  | "+" => .ok (w.add left right)
  | "-" => .ok (.number (w.number left - w.number right))
  | "*" => .ok (.number (w.number left * w.number right))
  | "/" => .ok (.number (w.number left / w.number right))
  | "%" => .ok (.number (Numeric.remainder (w.number left) (w.number right)))
  | "**" => .ok (.number (Numeric.power (w.number left) (w.number right)))
  | "==" => .ok (.bool (w.looseEquals left right))
  | "!=" => .ok (.bool (!w.looseEquals left right))
  | "===" => .ok (.bool (left.strictEquals right))
  | "!==" => .ok (.bool (!left.strictEquals right))
  | "<" => .ok (.bool ((w.compare? left right).any fun o => o.isLT))
  | ">" => .ok (.bool ((w.compare? left right).any fun o => o.isGT))
  | "<=" => .ok (.bool ((w.compare? left right).any fun o => o.isLE))
  | ">=" => .ok (.bool ((w.compare? left right).any fun o => o.isGE))
  | "&" => .ok (w.wordOperator (· &&& ·) left right)
  | "|" => .ok (w.wordOperator (· ||| ·) left right)
  | "^" => .ok (w.wordOperator (· ^^^ ·) left right)
  | "<<" => .ok (w.wordOperator (fun a b => a <<< Numeric.shiftCount b) left right)
  | ">>" => .ok (w.wordOperator (fun a b => a.sshiftRight (Numeric.shiftCount b)) left right)
  | ">>>" => .ok (w.shiftRightUnsigned left right)
  | "in" => (w.hasProperty right (w.key left)).map .bool
  | _ => .error (.custom ("unsupported binary operator '" ++ op ++ "'"))

/-- Evaluate a unary operator; `delete` needs more than a value and is no operator here. -/
def unary (op : String) (operand : Value) : Except Cause Value :=
  match op with
  | "-" => .ok (.number (-w.number operand))
  | "+" => .ok (.number (w.number operand))
  | "!" => .ok (.bool (!operand.isTruthy))
  | "~" => .ok (.number (Numeric.ofSignedWord (~~~Numeric.toWord (w.number operand))))
  | "typeof" => .ok (.str operand.typeOf)
  | "void" => .ok .undefined
  | _ => .error (.custom ("unsupported unary operator '" ++ op ++ "'"))

/-- The value one above or one below. -/
def stepped (operand : Value) (up : Bool) : Value :=
  .number (if up then w.number operand + 1.0 else w.number operand - 1.0)

end ScriptCore.World

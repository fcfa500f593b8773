import ScriptCore.Value.Text

/-!
# Functions of the standard host

A few functions that a host may offer to programs, by name: they log, add, pack, give back their
receiver, and fail in two ways.
-/
namespace ScriptCore.Host.Native

/-- The texts of arguments, joined by one space. -/
def argumentText (w : World) (args : List Value) : String := " ".intercalate (args.map w.text)

/-- Log the arguments as a line; the first one is the result. -/
def log (args : List Value) (w : World) : Except EvalError Value × World :=
  let line := argumentText w args
  (.ok (args.headD .undefined), { w with log := w.log.push line })

/-- Add the arguments as numbers, from left to right. -/
def sum (args : List Value) (w : World) : Except EvalError Value × World :=
  let total := args.foldl (fun total arg => total + w.number arg) (Numeric.ofNat 0)
  (.ok (.number total), w)

/-- A fresh array of the arguments. -/
def pack (args : List Value) (w : World) : Except EvalError Value × World :=
  let (array, w) := w.newArray args.toArray
  (.ok array, w)

/-- Fail with the arguments as the message. -/
def fail (args : List Value) (w : World) : Except EvalError Value × World :=
  (.error (.of (.custom ("native failure: " ++ argumentText w args))), w)

/-- The node at which `reject` fails, wherever it is called. -/
def rejectedNode : NodeId := 7

/-- Fail as for an unsupported node, at a node of its own. -/
def reject (args : List Value) (w : World) : Except EvalError Value × World :=
  (.error ((EvalError.of (.unsupportedNode (argumentText w args))).raisedAt rejectedNode), w)

def find? (name : String) : Option (Value → List Value → World → Except EvalError Value × World) :=
  match name with
  | "log" => some fun _ => log
  | "sum" => some fun _ => sum
  | "pack" => some fun _ => pack
  | "receiver" => some fun receiver _ w => (.ok receiver, w)
  | "fail" => some fun _ => fail
  | "reject" => some fun _ => reject
  | _ => none

end ScriptCore.Host.Native

import ScriptCore.Eval.Rule

/-!
# Rules of the standard host

Rules that a host may put into the tables of both passes. The evaluation rules give a constant,
describe where they run, evaluate children, open a block, call, create a function, or end abruptly;
the hoisting rules skip, go on, or declare a name for a node kind of the host's own.
-/
namespace ScriptCore.Host.Rules

def count (n : Nat) : Value := .number (Numeric.ofNat n)

/-- Initialise the name that a node carries, where it was declared. -/
def initGlobal : Evaluation := fun c node scope =>
  match c.tree.text? node "name" with
  | some name => do
    Eval.scopes fun g => g.declare (c.declarationTarget node scope) name (count 99)
    pure .undefined
  | none => pure .undefined

/-- Describe the node and the activation it is evaluated in. -/
def info : Evaluation := fun c node scope =>
  .makes fun w =>
    w.newObject (Dict.ofList
      [("tag", .str (c.tree.tag node)),
       ("node", count node),
       ("depth", count c.depth),
       ("maxCallDepth", count c.limits.maxCallDepth),
       ("maxArrayLength", count c.limits.maxArrayLength),
       ("root", count c.links.root),
       ("visited", .bool (c.links.contains node)),
       ("scopeDepth", count (w.scopes.depth scope))])

/-- Evaluate a child twice and gather the values. -/
def twice : Evaluation := fun c node scope => do
  let inner ← c.require node "inner"
  let first ← c.eval inner scope
  let second ← c.eval inner scope
  Eval.makes fun w => w.newArray #[first, second]

/-- Run the node's statements in its block scope. -/
def block : Evaluation := fun c node scope => do
  let own ← c.blockScope node scope
  c.evalStatements node "body" own

/-- Call a child with a receiver and two arguments. -/
def apply : Evaluation := fun c node scope => do
  let callee ← c.require node "callee"
  let function ← c.eval callee scope
  c.call function (.str "host") [count 1, count 2]

def find? (name : String) : Option Evaluation :=
  match name with
  | "const99" => some fun _ _ _ => pure (count 99)
  | "init_global" => some initGlobal
  | "info" => some info
  | "twice" => some twice
  | "block" => some block
  | "apply" => some apply
  | "closure" => some fun c node scope => c.createClosure node scope (some "hosted")
  | "fail" => some fun _ _ _ => .fail (.custom "host resolver failed")
  | "throw" => some fun _ _ _ => .abrupt (.threw (.str "host throw"))
  | "return" => some fun _ _ _ => .abrupt (.returned (count 5))
  | "break" => some fun _ _ _ => .abrupt .broke
  | "continue" => some fun _ _ _ => .abrupt .continued
  | _ => none

/-- Declare the name that a node carries in the node's scope, and leave its children. -/
def declareName : Handler Hoist.State := fun t node _ s =>
  (.skip, s.declare node (s.links.scopeOrRoot node) (t.text? node "name").toList)

/-- Declare the name of a node's identifier in the root scope of the resolution. -/
def declareRoot : Handler Hoist.State := fun t node _ s =>
  (.descend, s.declare node s.links.rootScope (Hoist.nameIn t node "id"))

def findHoist? (name : String) : Option (Handler Hoist.State) :=
  match name with
  | "skip" => some fun _ _ _ s => (.skip, s)
  | "continue" => some fun _ _ _ s => (.descend, s)
  | "declare_name" => some declareName
  | "declare_root" => some declareRoot
  | _ => none

end ScriptCore.Host.Rules

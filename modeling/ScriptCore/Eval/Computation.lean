import ScriptCore.Hoist.Links
import ScriptCore.World

/-!
# Computations

One step of the evaluator computes with a world and may, on its way, ask for tasks: the value of a
node, the binding of a pattern, a call, the rounds of a loop. It is written as a `Computation`, which
either is done or asks for one task and says how to go on with its outcome. So each rule of the
evaluator is an ordinary function, and how tasks are carried out, and how deep they nest, is decided
in one place (`ScriptCore.Evaluator.run`).

A computation may also break off. Nothing in the evaluated program receives that, not even a
finalizer: the whole evaluation ends without an outcome.
-/
namespace ScriptCore

/-- Bounds of an evaluation. -/
structure Limits where
  /-- how many calls of closures may be open at once -/
  maxCallDepth : Nat := 10000
  /-- how many elements an array may grow to by a write -/
  maxArrayLength : Nat := Nat.pow 2 24
  deriving DecidableEq, Repr

/-- A program or a call under evaluation: the tree of its nodes, the links of its resolution and the
number of calls around it. -/
structure Activation where
  tree : Tree
  links : Links
  depth : Nat

/-- How the identifiers of a pattern get their values. -/
inductive Binding where
  /-- write the cell of this scope -/
  | declare (target : ScopeId)
  /-- write the nearest cell -/
  | assign
  deriving DecidableEq, Repr

/-- The parts of a loop that are evaluated again and again. -/
structure Loop where
  test : Option NodeId
  body : NodeId
  update : Option NodeId
  deriving DecidableEq, Repr

/-- What a step of the evaluator may ask for. -/
inductive Task where
  /-- the value of a node in a scope -/
  | eval (a : Activation) (node : NodeId) (scope : ScopeId)
  /-- bind a value to a pattern, defaults and keys being evaluated in a scope -/
  | bind (a : Activation) (pattern : NodeId) (value : Value) (scope : ScopeId) (binding : Binding)
  /-- call a function from inside `depth` calls -/
  | call (depth : Nat) (callee receiver : Value) (args : List Value)
  /-- the rounds of a loop, the first with or without its test -/
  | loop (a : Activation) (loop : Loop) (scope : ScopeId) (testFirst : Bool)

/-- A computation with a world: done, asking for a task, or broken off. -/
inductive Computation (α : Type) where
  | done (outcome : Except Abrupt α) (w : World)
  | ask (task : Task) (w : World) (resume : Except Abrupt Value → World → Computation α)
  | brokenOff

namespace Computation

variable {α β : Type}

/-- Go on with the value of a computation; an abrupt end stays. -/
def andThen : Computation α → (α → World → Computation β) → Computation β
  | .done (.ok a) w, f => f a w
  | .done (.error e) w, _ => .done (.error e) w
  | .ask task w resume, f => .ask task w fun outcome w => (resume outcome w).andThen f
  | .brokenOff, _ => .brokenOff

/-- The outcome of a computation as its value. -/
def caught : Computation α → Computation (Except Abrupt α)
  | .done outcome w => .done (.ok outcome) w
  | .ask task w resume => .ask task w fun outcome w => (resume outcome w).caught
  | .brokenOff => .brokenOff

def raisedAt (node : NodeId) : Computation α → Computation α
  | .done (.ok a) w => .done (.ok a) w
  | .done (.error e) w => .done (.error (e.raisedAt node)) w
  | .ask task w resume => .ask task w fun outcome w => (resume outcome w).raisedAt node
  | .brokenOff => .brokenOff

end Computation

/-- A step of the evaluator. -/
def Eval (α : Type) : Type := World → Computation α

namespace Eval

variable {α β : Type}

instance : Monad Eval where
  pure a := fun w => .done (.ok a) w
  bind m f := fun w => (m w).andThen f

def abrupt (e : Abrupt) : Eval α := fun w => .done (.error e) w

def fail (cause : Cause) : Eval α := abrupt (.of cause)

/-- Go on with a value or fail. -/
def ofExcept : Except Cause α → Eval α
  | .ok a => pure a
  | .error cause => fail cause

def reads (f : World → α) : Eval α := fun w => .done (.ok (f w)) w

/-- Look at the world, or fail for what is there. -/
def checks (f : World → Except Cause α) : Eval α := fun w =>
  match f w with
  | .ok a => .done (.ok a) w
  | .error cause => .done (.error (.of cause)) w

def modifies (f : World → World) : Eval Unit := fun w => .done (.ok ()) (f w)

def makes (f : World → α × World) : Eval α := fun w =>
  match f w with
  | (a, w) => .done (.ok a) w

/-- Change the world and get something from it, or fail. -/
def attempts (f : World → Except Cause α × World) : Eval α := fun w =>
  match f w with
  | (.ok a, w) => .done (.ok a) w
  | (.error cause, w) => .done (.error (.of cause)) w

/-- Change the world and get something from it, or fail, or break off where there is no result. -/
def risks (f : World → Option (Except Cause α × World)) : Eval α := fun w =>
  match f w with
  | some (.ok a, w) => .done (.ok a) w
  | some (.error cause, w) => .done (.error (.of cause)) w
  | none => .brokenOff

def scopes (f : ScopeGraph → ScopeGraph) : Eval Unit := modifies fun w => w.modifyScopes f

def catching (m : Eval α) : Eval (Except Abrupt α) := fun w => (m w).caught

def raisedAt (node : NodeId) (m : Eval α) : Eval α := fun w => (m w).raisedAt node

def ask (task : Task) : Eval Value := fun w => .ask task w fun outcome w => .done outcome w

end Eval

/-- An activation under its limits: where the rules of the evaluator work. -/
structure Context extends Activation where
  limits : Limits

namespace Context

variable (c : Context)

def eval (node : NodeId) (scope : ScopeId) : Eval Value := .ask (.eval c.toActivation node scope)

def bind (pattern : NodeId) (value : Value) (scope : ScopeId) (binding : Binding) : Eval Unit := do
  let _ ← Eval.ask (.bind c.toActivation pattern value scope binding)

def call (callee receiver : Value) (args : List Value) : Eval Value :=
  .ask (.call c.depth callee receiver args)

def loop (loop : Loop) (scope : ScopeId) (testFirst : Bool) : Eval Value :=
  .ask (.loop c.toActivation loop scope testFirst)

def lacks {α : Type} (tag what : String) : Eval α :=
  .fail (.malformedNode tag ("missing `" ++ what ++ "`"))

def require (node : NodeId) (key : String) : Eval NodeId :=
  match c.tree.child? node key with
  | some child => pure child
  | none => lacks (c.tree.tag node) key

def operator (node : NodeId) : Eval String :=
  match c.tree.text? node "operator" with
  | some op => pure op
  | none => lacks (c.tree.tag node) "operator"

/-- The scope that a block-like node evaluates its body in: the one it was given by the resolution, or
a fresh one for a block that was not visited. -/
def blockScope (node : NodeId) (scope : ScopeId) : Eval ScopeId :=
  match c.links.scope? node with
  | some own => pure own
  | none => .makes fun w =>
    let (child, g) := w.scopes.addChild scope
    (child, { w with scopes := g })

/-- The scope that a declaring node's names went to, or the current one if there is no record. -/
def declarationTarget (node : NodeId) (scope : ScopeId) : ScopeId :=
  (c.links.target? node).getD scope

end Context

end ScriptCore

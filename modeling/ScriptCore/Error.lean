import ScriptCore.Tree.Basic
import ScriptCore.Value.Basic

/-!
# Failures and other abrupt ends

What can go wrong is a cause with its data; the wording is in one place, `Cause.message`. Beside
failures, an evaluation can end abruptly with `return`, `throw`, `break` or `continue`, each of which
some construct receives.
-/
namespace ScriptCore

/-- A request that would break the shape of the scope graph. -/
inductive StructuralError where
  /-- a scope was to be attached beneath itself or one of its descendants -/
  | scopeCycle
  /-- the root scope of a resolution already belongs to a node -/
  | rootScopeAlreadyBound (owner : NodeId)
  deriving DecidableEq, Repr

def nodeText (id : NodeId) : String := "#" ++ toString id

def StructuralError.message : StructuralError → String
  | .scopeCycle => "attaching this scope would create a cycle in the scope tree"
  | .rootScopeAlreadyBound owner => "root scope is already bound to node " ++ nodeText owner

/-- Why an evaluation failed. -/
inductive Cause where
  /-- no rule for a node's tag -/
  | unsupportedNode (tag : String)
  | notCallable (typeName : String)
  | notIterable (typeName : String)
  /-- a property of `undefined` or `null` was to be read or written -/
  | cannotReadProperty (property typeName : String)
  | invalidAssignmentTarget (tag : String)
  /-- more calls nested than allowed -/
  | stackOverflow (limit : Nat)
  | invalidArrayLength (length : String)
  /-- a thrown value that nothing caught, by its text -/
  | uncaughtException (text : String)
  /-- a node lacks what its tag requires -/
  | malformedNode (tag detail : String)
  /-- `return`, `break` or `continue` that nothing receives -/
  | illegalControlFlow (keyword : String)
  /-- a failure in the host's own words -/
  | custom (message : String)
  deriving DecidableEq, Repr

def Cause.message : Cause → String
  | .unsupportedNode tag => "unsupported node type: " ++ tag
  | .notCallable typeName => typeName ++ " is not a function"
  | .notIterable typeName => typeName ++ " is not iterable"
  | .cannotReadProperty property typeName =>
    "cannot read property '" ++ property ++ "' of " ++ typeName
  | .invalidAssignmentTarget tag => "invalid assignment target: " ++ tag
  | .stackOverflow limit => "maximum call depth exceeded (limit: " ++ toString limit ++ ")"
  | .invalidArrayLength length => "invalid array length: " ++ length
  | .uncaughtException text => "uncaught exception: " ++ text
  | .malformedNode tag detail => "malformed " ++ tag ++ ": " ++ detail
  | .illegalControlFlow keyword => "illegal " ++ keyword ++ " statement"
  | .custom message => message

/-- A failed evaluation: its cause, the node it was raised at, and the value that was thrown if it
came from a `throw`. -/
structure EvalError where
  cause : Cause
  node : Option NodeId := none
  thrown : Option Value := none

namespace EvalError

def of (cause : Cause) : EvalError := { cause }

/-- Attach the node the error was raised at, unless it already has one. -/
def raisedAt (e : EvalError) (node : NodeId) : EvalError :=
  { e with node := some (e.node.getD node) }

def message (e : EvalError) : String := e.cause.message

def report (e : EvalError) : String :=
  match e.node with
  | some node => e.message ++ " (at node " ++ nodeText node ++ ")"
  | none => e.message

end EvalError

/-- An end of an evaluation other than a value. -/
inductive Abrupt where
  | failure (error : EvalError)
  | returned (value : Value)
  | broke
  | continued
  | threw (value : Value)

namespace Abrupt

/-- The failure of a cause, not yet at any node. -/
def of (cause : Cause) : Abrupt := .failure (.of cause)

/-- Attach a node to a failure; the other ends have none. -/
def raisedAt (a : Abrupt) (node : NodeId) : Abrupt :=
  match a with
  | .failure error => .failure (error.raisedAt node)
  | other => other

def isFailure : Abrupt → Bool
  | .failure _ => true
  | _ => false

end Abrupt

/-- Reading or writing a property of a value that has none. -/
def cannotRead (property : String) (base : Value) : Cause :=
  .cannotReadProperty property base.typeName

end ScriptCore

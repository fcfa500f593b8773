import ScriptCore.Tree.Basic
import ScriptCore.Value.Basic

/-!
# Closures

A function value: its parameters, its body in the tree it came from, and the scope it was created in.
The captured scope never changes; each call gets a fresh scope beneath it.
-/
namespace ScriptCore

/-- How a function gets `this` and `arguments`. -/
inductive ClosureKind where
  /-- of its own, at each call -/
  | ordinary
  /-- from where it was created -/
  | arrow
  deriving DecidableEq, Repr

/-- A formal parameter. -/
structure Param where
  /-- an identifier or a destructuring pattern -/
  target : NodeId
  /-- the name, if the target is an identifier -/
  name : Option String
  /-- the expression for a missing argument -/
  default : Option NodeId
  /-- takes all remaining arguments -/
  rest : Bool
  deriving DecidableEq, Repr

/-- A function value. -/
structure Closure where
  /-- the displayed name -/
  name : Option String
  /-- the name that a function expression binds to itself in its body -/
  selfName : Option String
  kind : ClosureKind
  params : List Param
  node : NodeId
  body : NodeId
  /-- the body is an expression whose value is the result -/
  expressionBody : Bool
  /-- the tree of `node` and `body` -/
  tree : Tree
  /-- the scope the function was created in -/
  scope : ScopeId

namespace Closure

/-- The number of parameters before the first with a default and before a rest parameter. -/
def arity (c : Closure) : Nat :=
  (c.params.takeWhile fun p => p.default.isNone && !p.rest).length

def isArrow (c : Closure) : Bool := c.kind = .arrow

/-- The displayed name, empty for an anonymous function. -/
def displayName (c : Closure) : String := c.name.getD ""

end Closure

end ScriptCore

import ScriptCore.Eval.Machine
import ScriptCore.Tree.Import

/-!
# Running programs

Both passes over a tree: names are resolved against a root scope, then the tree is evaluated in it.
What the evaluation leaves behind is in the world, where a host reads the cells of the root scope and
may go on: evaluate a node, call a function, run another tree.

Every run ends in one of three ways (`Run`): with a result, broken off, or after `Evaluator.manySteps`
steps.
-/
namespace ScriptCore

/-- What can go wrong with a program, from its text to its value. -/
inductive RunError where
  | notImported (error : ImportError)
  | notResolved (error : StructuralError)
  | notEvaluated (error : EvalError)

def RunError.report : RunError → String
  | .notImported error => error.message
  | .notResolved error => error.message
  | .notEvaluated error => error.report

namespace World

def newRootScope (w : World) : ScopeId × World :=
  let (scope, g) := w.scopes.addRoot none
  (scope, { w with scopes := g })

def newChildScope (w : World) (parent : ScopeId) : ScopeId × World :=
  let (scope, g) := w.scopes.addChild parent
  (scope, { w with scopes := g })

def declareAll (w : World) (scope : ScopeId) (cells : List (String × Value)) : World :=
  w.modifyScopes fun g => cells.foldl (fun g cell => g.declare scope cell.1 cell.2) g

end World

namespace Evaluator

variable (ev : Evaluator)

def resolve (t : Tree) (root : ScopeId) (w : World) : Except StructuralError Resolved × World :=
  match ev.resolver.resolve t root w.scopes with
  | .ok state => (.ok ⟨t, root, state.links⟩, { w with scopes := state.scopes })
  | .error error => (.error error, w)

/-- Evaluate a node of a resolved tree in the scope its links give it, outside all calls. -/
def evalAt (r : Resolved) (node : NodeId) (w : World) : Run (Except Abrupt Value × World) :=
  ev.perform manySteps (.eval ⟨r.tree, r.links, 0⟩ node (r.links.scopeOrRoot node)) w

/-- Call a function from inside `depth` calls. -/
def callAt (depth : Nat) (callee receiver : Value) (args : List Value) (w : World) :
    Run (Except Abrupt Value × World) :=
  ev.perform manySteps (.call depth callee receiver args) w

/-- An abrupt end that escaped the whole evaluation is an error. -/
def settle (outcome : Except Abrupt Value × World) : Except EvalError Value × World :=
  match outcome with
  | (.ok value, w) => (.ok value, w)
  | (.error e, w) => (.error (w.errorOf e), w)

def evaluate (r : Resolved) (w : World) : Run (Except EvalError Value × World) :=
  (ev.perform manySteps (.eval ⟨r.tree, r.links, 0⟩ r.links.root r.links.rootScope) w).map settle

def runTree (t : Tree) (root : ScopeId) (w : World) :
    Run (Except RunError (Resolved × Value) × World) :=
  match ev.resolve t root w with
  | (.error error, w) => .ended (.error (.notResolved error), w)
  | (.ok r, w) =>
    (ev.evaluate r w).map fun
      | (.ok value, w) => (.ok (r, value), w)
      | (.error error, w) => (.error (.notEvaluated error), w)

/-- Import a text and run it against a fresh root scope of an empty world. -/
def runText (text : String) : Run (Except RunError (Resolved × Value) × World) :=
  match Tree.ofText text with
  | .error error => .ended (.error (.notImported error), {})
  | .ok t =>
    let (root, w) := World.newRootScope {}
    ev.runTree t root w

end Evaluator

end ScriptCore

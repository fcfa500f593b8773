import ScriptCore.Eval.Computation

/-!
# Creating functions

A function node evaluates to a fresh closure over the current scope. Function declarations of a
statement list are bound before its first statement runs, so that calls that precede a declaration
see it.
-/
namespace ScriptCore

namespace Closure

/-- A formal parameter: a pattern with a default, a rest element, or a target by itself. -/
def paramOf (t : Tree) (node : NodeId) : Param :=
  match t.tag node with
  | "AssignmentPattern" =>
    let target := (t.child? node "left").getD node
    ⟨target, t.identifierName? target, t.child? node "right", false⟩
  | "RestElement" =>
    let target := (t.child? node "argument").getD node
    ⟨target, t.identifierName? target, none, true⟩
  | _ => ⟨node, t.identifierName? node, none, false⟩

/-- The closure of a function node over a scope. Generators and async functions are not supported. -/
def ofNode (t : Tree) (node : NodeId) (scope : ScopeId) (name : Option String) :
    Except Cause Closure :=
  let tag := t.tag node
  if t.flag node "generator" then .error (.unsupportedNode (tag ++ " (generator)"))
  else if t.flag node "async" then .error (.unsupportedNode (tag ++ " (async)"))
  else
    match t.child? node "body" with
    | none => .error (.malformedNode tag "missing `body`")
    | some body =>
      let idName := (t.child? node "id").bind t.identifierName?
      .ok {
        name := idName.or name
        selfName := if t.is node "FunctionExpression" then idName else none
        kind := if t.is node "ArrowFunctionExpression" then .arrow else .ordinary
        params := (t.present node "params").map (paramOf t)
        node
        body
        expressionBody := !t.is body "BlockStatement"
        tree := t
        scope }

end Closure

namespace Context

variable (c : Context)

/-- A fresh closure for a function node; `name` is for a node without a name of its own. -/
def createClosure (node : NodeId) (scope : ScopeId) (name : Option String) : Eval Value := do
  let closure ← Eval.ofExcept (Closure.ofNode c.tree node scope name)
  .makes fun w => w.newClosure closure

/-- A function or arrow expression without a name of its own. -/
def isAnonymousFunction (node : NodeId) : Bool :=
  (c.tree.is node "FunctionExpression" || c.tree.is node "ArrowFunctionExpression")
    && (c.tree.child? node "id").isNone

/-- A closure under a name of its own, if it is anonymous. -/
def named (w : World) (name : String) (id : ClosureId) : Value × World :=
  match w.closure? id with
  | some closure =>
    if closure.name.isNone then w.newClosure { closure with name := some name }
    else (.closure id, w)
  | none => (.closure id, w)

/-- The value of a node; an anonymous function gets the given name, as a closure of its own. -/
def evalNamed (node : NodeId) (scope : ScopeId) (name : Option String) : Eval Value := do
  let value ← c.eval node scope
  match name, value with
  | some name, .closure id =>
    if c.isAnonymousFunction node then .makes fun w => named w name id else pure value
  | _, _ => pure value

def instantiateFunctions (scope : ScopeId) : List NodeId → Eval Unit
  | [] => pure ()
  | statement :: rest => do
    if c.tree.is statement "FunctionDeclaration" then
      match (c.tree.child? statement "id").bind c.tree.identifierName? with
      | some name =>
        let closure ← c.createClosure statement scope none
        Eval.scopes fun g => g.declare (c.declarationTarget statement scope) name closure
      | none => pure ()
    instantiateFunctions scope rest

/-- Evaluate statements in order; the value is that of the last one. -/
def evalEach (scope : ScopeId) (last : Value) : List NodeId → Eval Value
  | [] => pure last
  | statement :: rest => do
    let value ← c.eval statement scope
    evalEach scope value rest

def evalStatements (node : NodeId) (key : String) (scope : ScopeId) : Eval Value := do
  let statements := c.tree.present node key
  c.instantiateFunctions scope statements
  c.evalEach scope .undefined statements

end Context

end ScriptCore

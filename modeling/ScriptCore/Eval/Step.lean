import ScriptCore.Eval.Rule

/-!
# Carrying out a task

What each task amounts to, in terms of computations that may ask for further tasks. A call makes a
scope beneath the closure's captured one, resolves the body against it, binds the closure's own name,
`this` and `arguments`, then the parameters, and runs the body. A loop hands over to its next round
instead of asking for it, so that rounds do not nest.
-/
namespace ScriptCore

/-- All that an evaluation is run with. -/
structure Evaluator where
  rules : RuleTable := RuleTable.default
  resolver : Resolver := {}
  limits : Limits := {}
  host : Host

/-- How a task ends normally: with a value, or by handing over to another task. -/
inductive Ending where
  | value (value : Value)
  | handOver (task : Task)

namespace Evaluator

variable (ev : Evaluator)

def context (a : Activation) : Context := { a with limits := ev.limits }

/-- Evaluate a node by the rule for its tag; failures without a node get this one. -/
def evalNode (a : Activation) (node : NodeId) (scope : ScopeId) : Eval Value :=
  match ev.rules.get? (a.tree.tag node) with
  | some rule => (rule.meaning ev.host (ev.context a) node scope).raisedAt node
  | none => (Eval.fail (.unsupportedNode (a.tree.tag node))).raisedAt node

/-- What a parameter is given: the next argument, or a fresh array of all that are left for a rest
parameter. -/
def argumentFor (param : Param) (args : List Value) : Eval Value :=
  if param.rest then Eval.makes fun w => w.newArray args.toArray
  else pure (args.headD .undefined)

/-- The value of a parameter: what it is given, or its default for `undefined`. -/
def valueFor (c : Context) (scope : ScopeId) (param : Param) (given : Value) : Eval Value :=
  match param.default with
  | some default => if given.isUndefined then c.eval default scope else pure given
  | none => pure given

def bindParameter (c : Context) (scope : ScopeId) (param : Param) (value : Value) : Eval Unit :=
  match param.name with
  | some name => Eval.scopes fun g => g.declare scope name value
  | none => c.bind param.target value scope (.declare scope)

/-- Bind the parameters of a call from left to right, defaults being evaluated in its scope. -/
def bindParameters (c : Context) (scope : ScopeId) : List Param → List Value → Eval Unit
  | [], _ => pure ()
  | param :: params, args => do
    let given ← argumentFor param args
    let value ← valueFor c scope param given
    bindParameter c scope param value
    bindParameters c scope params (if param.rest then [] else args.tail)

/-- A scope for a call, with the declarations of the body in it. -/
def enterCall (closure : Closure) : Eval (ScopeId × Links) :=
  .makes fun w =>
    let (scope, g) := w.scopes.addChild closure.scope
    match ev.resolver.resolveBody closure.tree closure.body scope g with
    | ⟨links, g⟩ => ((scope, links), { w with scopes := g })

/-- Bind a closure's own name, unless the body declares it. -/
def bindSelf (id : ClosureId) (closure : Closure) (scope : ScopeId) : Eval Unit :=
  match closure.selfName with
  | some name =>
    Eval.scopes fun g => if g.hasOwn scope name then g else g.declare scope name (.closure id)
  | none => pure ()

/-- Bind what a call brings along: the closure's own name, and for an ordinary function `this` and
`arguments`. -/
def bindImplicit (id : ClosureId) (closure : Closure) (scope : ScopeId) (receiver : Value)
    (args : List Value) : Eval Unit := do
  bindSelf id closure scope
  if closure.isArrow then pure ()
  else
    Eval.scopes fun g => g.declare scope "this" receiver
    let array ← Eval.makes fun w => w.newArray args.toArray
    Eval.scopes fun g => (g.declare scope "arguments" array).markDynamic scope

/-- The result of a call whose body ended in the given way. -/
def resultOf (closure : Closure) (outcome : Except Abrupt Value) : Eval Value :=
  match outcome with
  | .ok value => pure (if closure.expressionBody then value else .undefined)
  | .error (.returned value) => pure value
  | .error .broke => .fail (.illegalControlFlow "break")
  | .error .continued => .fail (.illegalControlFlow "continue")
  | .error other => .abrupt other

/-- Call a closure from inside `depth` calls. -/
def callClosure (depth : Nat) (id : ClosureId) (closure : Closure) (receiver : Value)
    (args : List Value) : Eval Value := do
  if ev.limits.maxCallDepth ≤ depth then .fail (.stackOverflow ev.limits.maxCallDepth)
  else
    let (scope, links) ← ev.enterCall closure
    bindImplicit id closure scope receiver args
    let c := ev.context ⟨closure.tree, links, depth + 1⟩
    bindParameters c scope closure.params args
    let outcome ← (c.eval closure.body scope).catching
    resultOf closure outcome

def callNative (name : String) (receiver : Value) (args : List Value) : Eval Value := fun w =>
  match ev.host.native name with
  | some native =>
    match native receiver args w with
    | (.ok value, w) => .done (.ok value) w
    | (.error error, w) => .done (.error (.failure error)) w
  | none => .done (.error (.of (.custom "no such function"))) w

def callValue (depth : Nat) (callee receiver : Value) (args : List Value) : Eval Value := do
  match callee with
  | .closure id =>
    match ← Eval.reads fun w => w.closure? id with
    | some closure => ev.callClosure depth id closure receiver args
    | none => .fail (.notCallable callee.typeName)
  | .native name => ev.callNative name receiver args
  | other => .fail (.notCallable other.typeName)

/-- Whether a round of a loop starts. -/
def enters (c : Context) (loop : Loop) (scope : ScopeId) (testFirst : Bool) : Eval Bool :=
  match loop.test with
  | some test =>
    if testFirst then Value.isTruthy <$> c.eval test scope
    else pure true
  | none => pure true

def update (c : Context) (loop : Loop) (scope : ScopeId) : Eval Unit :=
  match loop.update with
  | some update => do
    let _ ← c.eval update scope
  | none => pure ()

def round (a : Activation) (loop : Loop) (scope : ScopeId) (testFirst : Bool) : Eval Ending := do
  let c := ev.context a
  if ← enters c loop scope testFirst then
    if ← c.bodyOnce loop.body scope then
      update c loop scope
      pure (.handOver (.loop a loop scope true))
    else pure (.value .undefined)
  else pure (.value .undefined)

def carryOut : Task → Eval Ending
  | .eval a node scope => Ending.value <$> ev.evalNode a node scope
  | .bind a pattern value scope binding => do
    (ev.context a).bindPattern pattern value scope binding
    pure (.value .undefined)
  | .call depth callee receiver args => Ending.value <$> ev.callValue depth callee receiver args
  | .loop a loop scope testFirst => ev.round a loop scope testFirst

end Evaluator

end ScriptCore

import ScriptCore.Eval.Function
import ScriptCore.Eval.Pattern
import ScriptCore.Hoist.Names

/-!
# Statements

The rules of the statement nodes. Exits travel as abrupt ends: a loop receives `break` and
`continue`, a switch receives `break`, `try` receives what was thrown, and a call receives `return`.
-/
namespace ScriptCore.Context

variable (c : Context)

/-- A program runs its statements in the scope it is given. -/
def program (node : NodeId) (scope : ScopeId) : Eval Value := c.evalStatements node "body" scope

def blockStatement (node : NodeId) (scope : ScopeId) : Eval Value := do
  let scope ← c.blockScope node scope
  c.evalStatements node "body" scope

def expressionStatement (node : NodeId) (scope : ScopeId) : Eval Value := do
  let expression ← c.require node "expression"
  c.eval expression scope

/-- Statements without an effect of their own: function declarations are bound when their list starts,
and imports stay unset until a host links them. -/
def emptyStatement (_ : NodeId) (_ : ScopeId) : Eval Value := pure .undefined

/-! ## Declarations -/

def resetNames (target : ScopeId) (names : List String) : Eval Unit :=
  .scopes fun g => names.foldl (fun g name => g.declare target name .undefined) g

/-- Write the initial value of a declarator where its names were declared. Without one a `var` keeps
what it has, and `let` and `const` reset to `undefined`. -/
def declarator (node : NodeId) (isVar : Bool) (scope : ScopeId) : Eval Unit := do
  let id ← c.require node "id"
  let target := c.declarationTarget node scope
  match c.tree.child? node "init" with
  | some init =>
    let value ← c.evalNamed init scope (c.tree.identifierName? id)
    c.bind id value scope (.declare target)
  | none => if isVar then pure () else resetNames target (c.tree.bindingNames id)

def declarators (isVar : Bool) (scope : ScopeId) : List NodeId → Eval Value
  | [] => pure .undefined
  | node :: rest => do
    c.declarator node isVar scope
    declarators isVar scope rest

def variableDeclaration (node : NodeId) (scope : ScopeId) : Eval Value :=
  let kind := (c.tree.text? node "kind").getD "var"
  c.declarators (kind != "let" && kind != "const") scope (c.tree.present node "declarations")

/-! ## Branches and loops -/

def ifStatement (node : NodeId) (scope : ScopeId) : Eval Value := do
  let test ← c.require node "test"
  let value ← c.eval test scope
  if value.isTruthy then
    let consequent ← c.require node "consequent"
    c.eval consequent scope
  else
    match c.tree.child? node "alternate" with
    | some alternate => c.eval alternate scope
    | none => pure .undefined

/-- `for (init; test; update) body`: one scope for all rounds. -/
def forStatement (node : NodeId) (scope : ScopeId) : Eval Value := do
  let scope ← c.blockScope node scope
  let body ← c.require node "body"
  match c.tree.child? node "init" with
  | some init =>
    let _ ← c.eval init scope
    c.loop ⟨c.tree.child? node "test", body, c.tree.child? node "update"⟩ scope true
  | none => c.loop ⟨c.tree.child? node "test", body, c.tree.child? node "update"⟩ scope true

def whileStatement (node : NodeId) (scope : ScopeId) : Eval Value := do
  let test ← c.require node "test"
  let body ← c.require node "body"
  c.loop ⟨some test, body, none⟩ scope true

def doWhileStatement (node : NodeId) (scope : ScopeId) : Eval Value := do
  let test ← c.require node "test"
  let body ← c.require node "body"
  c.loop ⟨some test, body, none⟩ scope false

/-- Whether a loop goes on after its body ended in the given way; other ends leave the loop. -/
def goesOn (outcome : Except Abrupt Value) : Eval Bool :=
  match outcome with
  | .ok _ | .error .continued => pure true
  | .error .broke => pure false
  | .error other => .abrupt other

/-- Run the body of a loop once; tells whether the loop goes on. -/
def bodyOnce (body : NodeId) (scope : ScopeId) : Eval Bool := do
  let outcome ← (c.eval body scope).catching
  goesOn outcome

/-- Bind the value of one round of `for…in` or `for…of` to the loop's left side. -/
def bindRound (left : NodeId) (value : Value) (scope : ScopeId) : Eval Unit := do
  if c.tree.is left "VariableDeclaration" then
    match c.tree.children left "declarations" with
    | some declarator :: _ =>
      let id ← c.require declarator "id"
      c.bind id value scope (.declare (c.declarationTarget declarator scope))
    | _ => (Eval.fail (.unsupportedNode "VariableDeclaration (empty)")).raisedAt left
  else c.bind left value scope .assign

/-- The rounds of `for…in` and `for…of`, one for each value. -/
def rounds (left body : NodeId) (scope : ScopeId) : List Value → Eval Value
  | [] => pure .undefined
  | value :: rest => do
    c.bindRound left value scope
    if ← c.bodyOnce body scope then rounds left body scope rest else pure .undefined

def iteration (node : NodeId) (values : List Value) (scope : ScopeId) : Eval Value := do
  let left ← c.require node "left"
  let body ← c.require node "body"
  c.rounds left body scope values

/-- `for (left in right)`: field names of an object, indices of an array or string. -/
def forInStatement (node : NodeId) (scope : ScopeId) : Eval Value := do
  let right ← c.require node "right"
  let subject ← c.eval right scope
  let keys ← Eval.reads fun w => w.enumerableKeys subject
  c.iteration node (keys.map .str) scope

/-- `for (left of right)`: elements of an array, characters of a string. -/
def forOfStatement (node : NodeId) (scope : ScopeId) : Eval Value := do
  let right ← c.require node "right"
  let subject ← c.eval right scope
  let values ← (Eval.checks fun w => w.iterate subject).raisedAt right
  c.iteration node values scope

/-! ## Switch -/

def instantiateCases (scope : ScopeId) : List NodeId → Eval Unit
  | [] => pure ()
  | case :: rest => do
    c.instantiateFunctions scope (c.tree.present case "consequent")
    instantiateCases scope rest

/-- The cases from the first one on whose test is strictly equal to the discriminant. -/
def selectCase (discriminant : Value) (scope : ScopeId) :
    List (Option NodeId) → Eval (Option (List (Option NodeId)))
  | [] => pure none
  | case :: rest => do
    match case.bind fun case => c.tree.child? case "test" with
    | some test =>
      let value ← c.eval test scope
      if value.strictEquals discriminant then pure (some (case :: rest))
      else selectCase discriminant scope rest
    | none => selectCase discriminant scope rest

/-- The cases from the first one without a test on. -/
def defaultCase (cases : List (Option NodeId)) : List (Option NodeId) :=
  cases.dropWhile fun case =>
    match case with
    | some case => (c.tree.child? case "test").isSome
    | none => true

/-- Run the statements of a switch; `break` ends it. -/
def runCases (scope : ScopeId) : List NodeId → Eval Value
  | [] => pure .undefined
  | statement :: rest => do
    match ← (c.eval statement scope).catching with
    | .ok _ => runCases scope rest
    | .error .broke => pure .undefined
    | .error other => .abrupt other

/-- `switch`: from the selected case, else from the default, through all following ones. The
discriminant is evaluated outside the switch's scope. -/
def switchStatement (node : NodeId) (scope : ScopeId) : Eval Value := do
  let discriminantNode ← c.require node "discriminant"
  let discriminant ← c.eval discriminantNode scope
  let scope ← c.blockScope node scope
  let cases := c.tree.children node "cases"
  c.instantiateCases scope (c.tree.present node "cases")
  let selected ← c.selectCase discriminant scope cases
  let chosen := (selected.getD (c.defaultCase cases)).filterMap fun case => case
  c.runCases scope (chosen.flatMap fun case => c.tree.present case "consequent")

/-! ## Exits -/

/-- A jump to a label is not supported. -/
def unlabelled (node : NodeId) (exit : Abrupt) : Eval Value :=
  if (c.tree.child? node "label").isSome then .fail (.unsupportedNode "LabeledStatement")
  else .abrupt exit

def breakStatement (node : NodeId) (_ : ScopeId) : Eval Value := c.unlabelled node .broke

def continueStatement (node : NodeId) (_ : ScopeId) : Eval Value := c.unlabelled node .continued

def returnStatement (node : NodeId) (scope : ScopeId) : Eval Value := do
  match c.tree.child? node "argument" with
  | some argument =>
    let value ← c.eval argument scope
    .abrupt (.returned value)
  | none => .abrupt (.returned .undefined)

def throwStatement (node : NodeId) (scope : ScopeId) : Eval Value := do
  let argument ← c.require node "argument"
  let value ← c.eval argument scope
  .abrupt (.threw value)

/-- Run a catch clause: its parameter is bound in the scope of its body. -/
def catchClause (clause : NodeId) (thrown : Value) (scope : ScopeId) : Eval Value := do
  let body ← c.require clause "body"
  let bodyScope ← c.blockScope body scope
  match c.tree.child? clause "param" with
  | some param =>
    c.bind param thrown bodyScope (.declare bodyScope)
    c.evalStatements body "body" bodyScope
  | none => c.evalStatements body "body" bodyScope

/-- The block of a `try` with its handler, which receives thrown values only. -/
def guardedBlock (node block : NodeId) (scope : ScopeId) : Eval Value := do
  match ← (c.eval block scope).catching, c.tree.child? node "handler" with
  | .error (.threw thrown), some handler => c.catchClause handler thrown scope
  | .ok value, _ => pure value
  | .error other, _ => .abrupt other

/-- `try`: the finalizer runs after the block and its handler in any case, and an abrupt end of it
replaces their outcome. -/
def tryStatement (node : NodeId) (scope : ScopeId) : Eval Value := do
  let block ← c.require node "block"
  let outcome ← (c.guardedBlock node block scope).catching
  match c.tree.child? node "finalizer" with
  | some finalizer =>
    let _ ← c.eval finalizer scope
    resume outcome
  | none => resume outcome
where
  /-- end as the block and its handler did -/
  resume (outcome : Except Abrupt Value) : Eval Value :=
    match outcome with
    | .ok value => pure value
    | .error e => .abrupt e

end ScriptCore.Context

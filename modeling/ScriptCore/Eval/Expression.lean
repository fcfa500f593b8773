import ScriptCore.Eval.Function
import ScriptCore.Eval.Pattern
import ScriptCore.Value.Operator

/-!
# Expressions

The rules of the expression nodes other than assignments. Operands are evaluated from left to right;
a reading that fails carries no node yet, which the evaluation of the node adds.
-/
namespace ScriptCore.Context

variable (c : Context)

/-- A name: the nearest cell, `undefined` if there is none. -/
def identifier (node : NodeId) (scope : ScopeId) : Eval Value :=
  match c.tree.identifierName? node with
  | some name => .reads fun w => (w.scopes.get? scope name).getD .undefined
  | none => lacks "Identifier" "name"

/-- A literal. Regular expressions and big integers are not supported. -/
def literal (node : NodeId) (_ : ScopeId) : Eval Value :=
  if (c.tree.field? node "regex.pattern").isSome then .fail (.unsupportedNode "RegExpLiteral")
  else if (c.tree.field? node "bigint").isSome then .fail (.unsupportedNode "BigIntLiteral")
  else
    match c.tree.field? node "value" with
    | some (.str s) => pure (.str s)
    | some (.num n) => pure (.number n)
    | some (.bool b) => pure (.bool b)
    | some .null => pure .null
    | _ => .fail (.malformedNode "Literal" "missing scalar `value`")

/-- `this`: what the nearest scope of an ordinary call holds. -/
def thisExpression (_ : NodeId) (scope : ScopeId) : Eval Value :=
  .reads fun w =>
    ((w.scopes.nearestDynamic? scope).bind fun s => w.scopes.getOwn? s "this").getD .undefined

def templateText (quasi : Option NodeId) : String :=
  match quasi with
  | some quasi =>
    ((c.tree.text? quasi "value.cooked").or (c.tree.text? quasi "value.raw")).getD ""
  | none => ""

/-- Join the parts of a template, each followed by the expression of the same index. -/
def templateParts (scope : ScopeId) (out : String) :
    List (Option NodeId) → List (Option NodeId) → Eval Value
  | [], _ => pure (.str out)
  | quasi :: quasis, expressions => do
    let out := out ++ c.templateText quasi
    match expressions.head?.join with
    | some expression =>
      let value ← c.eval expression scope
      let text ← Eval.reads fun w => w.text value
      templateParts scope (out ++ text) quasis expressions.tail
    | none => templateParts scope out quasis expressions.tail

def templateLiteral (node : NodeId) (scope : ScopeId) : Eval Value :=
  c.templateParts scope "" (c.tree.children node "quasis") (c.tree.children node "expressions")

def spread (element : NodeId) (scope : ScopeId) : Eval (List Value) := do
  let argument ← c.require element "argument"
  let value ← c.eval argument scope
  Eval.checks fun w => w.iterate value

/-- The elements of an array literal after those in `acc`; a hole is `undefined`. -/
def elements (scope : ScopeId) (acc : Array Value) : List (Option NodeId) → Eval (Array Value)
  | [] => pure acc
  | none :: rest => elements scope (acc.push .undefined) rest
  | some element :: rest => do
    if c.tree.is element "SpreadElement" then
      let values ← c.spread element scope
      elements scope (acc ++ values) rest
    else
      let value ← c.eval element scope
      elements scope (acc.push value) rest

def arrayExpression (node : NodeId) (scope : ScopeId) : Eval Value := do
  let items ← c.elements scope #[] (c.tree.children node "elements")
  Eval.makes fun w => w.newArray items

def copyProperties (w : World) (source : Value) (fields : Dict Value) : Except Cause (Dict Value) :=
  (w.enumerableKeys source).foldlM
    (fun fields key => (w.getProperty source key).map fun value => fields.insert key value) fields

/-- The fields of an object literal after those in `fields`. Accessors are not supported. -/
def properties (scope : ScopeId) (fields : Dict Value) : List NodeId → Eval (Dict Value)
  | [] => pure fields
  | property :: rest => do
    if c.tree.is property "SpreadElement" then
      let argument ← c.require property "argument"
      let source ← c.eval argument scope
      let fields ← Eval.checks fun w => copyProperties w source fields
      properties scope fields rest
    else if !c.tree.is property "Property" then
      (Eval.fail (.unsupportedNode (c.tree.tag property))).raisedAt property
    else
      let kind := (c.tree.text? property "kind").getD "init"
      if kind = "get" ∨ kind = "set" then
        (Eval.fail (.unsupportedNode ("Property (" ++ kind ++ " accessor)"))).raisedAt property
      else
        let key ← c.propertyKey property "key" scope
        let valueNode ← c.require property "value"
        let value ← c.evalNamed valueNode scope (some key)
        properties scope (fields.insert key value) rest

def objectExpression (node : NodeId) (scope : ScopeId) : Eval Value := do
  let fields ← c.properties scope ∅ (c.tree.present node "properties")
  Eval.makes fun w => w.newObject fields

def functionExpression (node : NodeId) (scope : ScopeId) : Eval Value :=
  c.createClosure node scope none

/-- A property; an optional one of a nullish base is `undefined`, its key unevaluated. -/
def memberExpression (node : NodeId) (scope : ScopeId) : Eval Value := do
  let object ← c.require node "object"
  let base ← c.eval object scope
  if base.isNullish && c.tree.flag node "optional" then pure .undefined
  else
    let key ← c.propertyKey node "property" scope
    Eval.checks fun w => w.getProperty base key

/-- A chain with optional links, each of which cuts off only itself. -/
def chainExpression (node : NodeId) (scope : ScopeId) : Eval Value := do
  let expression ← c.require node "expression"
  c.eval expression scope

/-- The arguments of a call after those in `acc`. -/
def arguments (scope : ScopeId) (acc : Array Value) : List NodeId → Eval (List Value)
  | [] => pure acc.toList
  | argument :: rest => do
    if c.tree.is argument "SpreadElement" then
      let values ← c.spread argument scope
      arguments scope (acc ++ values) rest
    else
      let value ← c.eval argument scope
      arguments scope (acc.push value) rest

/-- The function and the receiver of a call; `none` if an optional link cuts the call off. A member
callee supplies the receiver, any other callee is called without one. -/
def calleeOf (callee : NodeId) (scope : ScopeId) : Eval (Option (Value × Value)) := do
  if c.tree.is callee "MemberExpression" then
    let object ← c.require callee "object"
    let base ← c.eval object scope
    if base.isNullish && c.tree.flag callee "optional" then pure none
    else
      let key ← c.propertyKey callee "property" scope
      let function ← (Eval.checks fun w => w.getProperty base key).raisedAt callee
      pure (some (function, base))
  else
    let function ← c.eval callee scope
    pure (some (function, .undefined))

def callExpression (node : NodeId) (scope : ScopeId) : Eval Value := do
  let callee ← c.require node "callee"
  match ← c.calleeOf callee scope with
  | none => pure .undefined
  | some (function, receiver) =>
    if function.isNullish && c.tree.flag node "optional" then pure .undefined
    else
      let args ← c.arguments scope #[] (c.tree.present node "arguments")
      c.call function receiver args

/-- `delete`: a property is deleted; a name cannot be; any other operand is evaluated and counts as
gone. -/
def delete (argument : NodeId) (scope : ScopeId) : Eval Value := do
  if c.tree.is argument "MemberExpression" then
    let object ← c.require argument "object"
    let base ← c.eval object scope
    let key ← c.propertyKey argument "property" scope
    let gone ← Eval.attempts fun w => w.deleteProperty base key
    pure (.bool gone)
  else if c.tree.is argument "Identifier" then pure (.bool false)
  else
    let _ ← c.eval argument scope
    pure (.bool true)

def unaryExpression (node : NodeId) (scope : ScopeId) : Eval Value := do
  let op ← c.operator node
  let argument ← c.require node "argument"
  if op = "delete" then c.delete argument scope
  else
    let value ← c.eval argument scope
    Eval.checks fun w => w.unary op value

def binaryExpression (node : NodeId) (scope : ScopeId) : Eval Value := do
  let op ← c.operator node
  let left ← c.require node "left"
  let right ← c.require node "right"
  let left ← c.eval left scope
  let right ← c.eval right scope
  Eval.checks fun w => w.binary op left right

/-- Whether a logical operator is settled by its left operand; `none` for another operator. -/
def settledBy? (op : String) (left : Value) : Option Bool :=
  match op with
  | "&&" => some (!left.isTruthy)
  | "||" => some left.isTruthy
  | "??" => some (!left.isNullish)
  | _ => none

def logicalExpression (node : NodeId) (scope : ScopeId) : Eval Value := do
  let op ← c.operator node
  let left ← c.require node "left"
  let right ← c.require node "right"
  let value ← c.eval left scope
  match settledBy? op value with
  | some true => pure value
  | some false => c.eval right scope
  | none => .fail (.custom ("unsupported logical operator '" ++ op ++ "'"))

def conditionalExpression (node : NodeId) (scope : ScopeId) : Eval Value := do
  let test ← c.require node "test"
  let value ← c.eval test scope
  let branch ← c.require node (if value.isTruthy then "consequent" else "alternate")
  c.eval branch scope

/-- Expressions in order; the value is that of the last one. -/
def sequenceExpression (node : NodeId) (scope : ScopeId) : Eval Value :=
  c.evalEach scope .undefined (c.tree.present node "expressions")

end ScriptCore.Context

import ScriptCore.Eval.Computation
import ScriptCore.Value.Property

/-!
# Places and patterns

An assignment writes to a place, a name or a property whose base and key are evaluated once.
Destructuring takes a value apart along a pattern: objects by key, arrays by position, with defaults
for what is `undefined` and a rest that gathers what is left.
-/
namespace ScriptCore

/-- A single place to write to. -/
inductive Place where
  | binding (name : String)
  | property (base : Value) (key : String)

namespace Context

variable (c : Context)

/-- The key in a field of a member expression or property: an identifier stands for its own name
unless the key is computed, everything else is evaluated. -/
def propertyKey (node : NodeId) (field : String) (scope : ScopeId) : Eval String := do
  let key ← c.require node field
  match if c.tree.flag node "computed" then none else c.tree.identifierName? key with
  | some name => pure name
  | none =>
    let value ← c.eval key scope
    Eval.reads fun w => w.key value

/-- The place that an identifier or a member expression denotes. -/
def place (target : NodeId) (scope : ScopeId) : Eval Place := do
  match c.tree.identifierName? target with
  | some name => pure (.binding name)
  | none =>
    if c.tree.is target "MemberExpression" then
      let object ← c.require target "object"
      let base ← c.eval object scope
      let key ← c.propertyKey target "property" scope
      pure (.property base key)
    else .fail (.invalidAssignmentTarget (c.tree.tag target))

def readPlace (place : Place) (scope : ScopeId) : Eval Value :=
  match place with
  | .binding name => .reads fun w => (w.scopes.get? scope name).getD .undefined
  | .property base key => .checks fun w => w.getProperty base key

def writePlace (place : Place) (value : Value) (scope : ScopeId) : Eval Unit :=
  match place with
  | .binding name => .scopes fun g => g.set scope name value
  | .property base key =>
    .risks fun w => w.setProperty? base key value c.limits.maxArrayLength

def bindName (name : String) (value : Value) (scope : ScopeId) : Binding → Eval Unit
  | .declare target => .scopes fun g => g.declare target name value
  | .assign => .scopes fun g => g.set scope name value

/-- Bind the elements of an array pattern from the given index on. A rest element takes the remaining
items and ends the pattern. -/
def bindElements (items : List Value) (scope : ScopeId) (binding : Binding) :
    List (Option NodeId) → Eval Unit
  | [] => pure ()
  | none :: rest => bindElements items.tail scope binding rest
  | some element :: rest => do
    if c.tree.is element "RestElement" then
      let argument ← c.require element "argument"
      let gathered ← Eval.makes fun w => w.newArray items.toArray
      c.bind argument gathered scope binding
    else
      c.bind element (items.headD .undefined) scope binding
      bindElements items.tail scope binding rest

/-- The fields of an object that a pattern has not used; other values have none. -/
def unusedFields (w : World) (value : Value) (used : List String) : Dict Value :=
  match value with
  | .object id => (w.object id).filterKeys fun key => !used.contains key
  | _ => ∅

/-- Bind the properties of an object pattern, after those of the keys in `used`. -/
def bindProperties (value : Value) (scope : ScopeId) (binding : Binding) :
    List String → List NodeId → Eval Unit
  | _, [] => pure ()
  | used, property :: rest => do
    if c.tree.is property "RestElement" then
      let argument ← c.require property "argument"
      let gathered ← Eval.makes fun w => w.newObject (unusedFields w value used)
      c.bind argument gathered scope binding
      bindProperties value scope binding used rest
    else
      let key ← c.propertyKey property "key" scope
      let target ← c.require property "value"
      let item ← Eval.checks fun w => w.getProperty value key
      c.bind target item scope binding
      bindProperties value scope binding (used ++ [key]) rest

/-- Bind a value to a pattern. A member expression is a pattern of assignments only. -/
def bindPattern (pattern : NodeId) (value : Value) (scope : ScopeId) (binding : Binding) :
    Eval Unit := do
  match c.tree.tag pattern, binding with
  | "Identifier", _ =>
    match c.tree.identifierName? pattern with
    | some name => bindName name value scope binding
    | none => lacks "Identifier" "name"
  | "MemberExpression", .assign =>
    let place ← c.place pattern scope
    c.writePlace place value scope
  | "AssignmentPattern", _ =>
    let left ← c.require pattern "left"
    if value.isUndefined then
      let right ← c.require pattern "right"
      let value ← c.eval right scope
      c.bind left value scope binding
    else c.bind left value scope binding
  | "ObjectPattern", _ =>
    c.bindProperties value scope binding [] (c.tree.present pattern "properties")
  | "ArrayPattern", _ =>
    let items ← Eval.checks fun w => w.iterate value
    c.bindElements items scope binding (c.tree.children pattern "elements")
  | other, _ => .fail (.invalidAssignmentTarget other)

end Context

end ScriptCore

import ScriptCore.Eval.Function
import ScriptCore.Eval.Expression

/-!
# Assignments

Plain, compound and destructuring assignments, and the steps `++` and `--`. A compound assignment
evaluates its place once, reads it, and writes what the operator gives; a logical one writes only
when its left side does not settle it.
-/
namespace ScriptCore.Context

variable (c : Context)

/-- `++` and `--`; a postfix step has the old value as a number. -/
def updateExpression (node : NodeId) (scope : ScopeId) : Eval Value := do
  let op ← c.operator node
  let argument ← c.require node "argument"
  let place ← c.place argument scope
  let old ← readPlace place scope
  let new ← Eval.reads fun w => w.stepped old (op == "++")
  c.writePlace place new scope
  if c.tree.flag node "prefix" then pure new
  else Eval.reads fun w => .number (w.number old)

/-- `left = right`. An anonymous function assigned to a name gets that name. -/
def assign (left right : NodeId) (scope : ScopeId) : Eval Value := do
  if c.tree.is left "ObjectPattern" || c.tree.is left "ArrayPattern" then
    let value ← c.eval right scope
    c.bind left value scope .assign
    pure value
  else
    let place ← c.place left scope
    let name := match place with
      | .binding name => some name
      | .property _ _ => none
    let value ← c.evalNamed right scope name
    c.writePlace place value scope
    pure value

/-- The operator before the sign `=` of a compound assignment. -/
def compoundOperator? (op : String) : Option String :=
  match op.toList.reverse with
  | '=' :: rest => some (String.ofList rest.reverse)
  | _ => none

/-- `left op= right` for a binary operator. -/
def assignBinary (op : String) (place : Place) (current : Value) (right : NodeId)
    (scope : ScopeId) : Eval Value := do
  match compoundOperator? op with
  | none => .fail (.malformedNode "AssignmentExpression" ("operator `" ++ op ++ "`"))
  | some operator =>
    let operand ← c.eval right scope
    let value ← Eval.checks fun w => w.binary operator current operand
    c.writePlace place value scope
    pure value

def logicalAssignment? (op : String) : Option String :=
  match op with
  | "&&=" => some "&&"
  | "||=" => some "||"
  | "??=" => some "??"
  | _ => none

def assignmentExpression (node : NodeId) (scope : ScopeId) : Eval Value := do
  let op ← c.operator node
  let left ← c.require node "left"
  let right ← c.require node "right"
  if op = "=" then c.assign left right scope
  else
    let place ← c.place left scope
    let current ← readPlace place scope
    match (logicalAssignment? op).bind fun op => settledBy? op current with
    | some true => pure current
    | some false =>
      let value ← c.eval right scope
      c.writePlace place value scope
      pure value
    | none => c.assignBinary op place current right scope

end ScriptCore.Context

import ScriptCore.Eval.Assignment
import ScriptCore.Eval.Expression
import ScriptCore.Eval.Statement
import ScriptCore.Hoist.Rule

/-!
# The table of evaluation rules

Which rule evaluates a node is looked up by the node's tag. Hosts add rules for new kinds of nodes or
replace the default ones; a tag without a rule is an unsupported construct.
-/
namespace ScriptCore

/-- A rule of evaluation. -/
inductive Rule where
  | identifier
  | literal
  | thisExpression
  | templateLiteral
  | arrayExpression
  | objectExpression
  | functionExpression
  | memberExpression
  | chainExpression
  | callExpression
  | unaryExpression
  | updateExpression
  | binaryExpression
  | logicalExpression
  | assignmentExpression
  | conditionalExpression
  | sequenceExpression
  | program
  | blockStatement
  | expressionStatement
  | emptyStatement
  | variableDeclaration
  | ifStatement
  | forStatement
  | forInStatement
  | forOfStatement
  | whileStatement
  | doWhileStatement
  | switchStatement
  | breakStatement
  | continueStatement
  | returnStatement
  | throwStatement
  | tryStatement
  | host (name : String)
  deriving DecidableEq, Repr

abbrev RuleTable := Dict Rule

namespace RuleTable

def default : RuleTable :=
  Dict.ofList
    [("Identifier", .identifier),
     ("Literal", .literal),
     ("ThisExpression", .thisExpression),
     ("TemplateLiteral", .templateLiteral),
     ("ArrayExpression", .arrayExpression),
     ("ObjectExpression", .objectExpression),
     ("FunctionExpression", .functionExpression),
     ("ArrowFunctionExpression", .functionExpression),
     ("MemberExpression", .memberExpression),
     ("ChainExpression", .chainExpression),
     ("CallExpression", .callExpression),
     ("UnaryExpression", .unaryExpression),
     ("UpdateExpression", .updateExpression),
     ("BinaryExpression", .binaryExpression),
     ("LogicalExpression", .logicalExpression),
     ("AssignmentExpression", .assignmentExpression),
     ("ConditionalExpression", .conditionalExpression),
     ("SequenceExpression", .sequenceExpression),
     ("Program", .program),
     ("BlockStatement", .blockStatement),
     ("ExpressionStatement", .expressionStatement),
     ("EmptyStatement", .emptyStatement),
     ("DebuggerStatement", .emptyStatement),
     ("ImportDeclaration", .emptyStatement),
     ("FunctionDeclaration", .emptyStatement),
     ("VariableDeclaration", .variableDeclaration),
     ("IfStatement", .ifStatement),
     ("ForStatement", .forStatement),
     ("ForInStatement", .forInStatement),
     ("ForOfStatement", .forOfStatement),
     ("WhileStatement", .whileStatement),
     ("DoWhileStatement", .doWhileStatement),
     ("SwitchStatement", .switchStatement),
     ("BreakStatement", .breakStatement),
     ("ContinueStatement", .continueStatement),
     ("ReturnStatement", .returnStatement),
     ("ThrowStatement", .throwStatement),
     ("TryStatement", .tryStatement)]

/-- Rules of the default table, looked up. -/
theorem get?_default : ∀ entry ∈ [("Identifier", Rule.identifier), ("Literal", .literal),
    ("ThisExpression", .thisExpression), ("FunctionExpression", .functionExpression),
    ("ArrowFunctionExpression", .functionExpression), ("MemberExpression", .memberExpression),
    ("ChainExpression", .chainExpression), ("CallExpression", .callExpression),
    ("BinaryExpression", .binaryExpression), ("LogicalExpression", .logicalExpression),
    ("AssignmentExpression", .assignmentExpression), ("Program", .program), ("BlockStatement", .blockStatement),
    ("SwitchStatement", .switchStatement), ("TryStatement", .tryStatement)],
    default.get? entry.1 = some entry.2 := by
  intro entry hentry
  rw [default, Dict.get?_ofList (by decide)]
  revert entry
  decide

end RuleTable

/-- What a rule does with a node in a scope. -/
abbrev Evaluation := Context → NodeId → ScopeId → Eval Value

/-- What the host brings to an evaluation. -/
structure Host where
  /-- its functions, by name, given receiver and arguments; `none` if there is no such function -/
  native : String → Option (Value → List Value → World → Except EvalError Value × World)
  /-- its evaluation rules, by name -/
  rule : String → Option Evaluation
  /-- its hoisting rules, by name -/
  hoistRule : Hoist.HostRules

def Rule.meaning (host : Host) : Rule → Evaluation
  | .identifier => Context.identifier
  | .literal => Context.literal
  | .thisExpression => fun _ => Context.thisExpression
  | .templateLiteral => Context.templateLiteral
  | .arrayExpression => Context.arrayExpression
  | .objectExpression => Context.objectExpression
  | .functionExpression => Context.functionExpression
  | .memberExpression => Context.memberExpression
  | .chainExpression => Context.chainExpression
  | .callExpression => Context.callExpression
  | .unaryExpression => Context.unaryExpression
  | .updateExpression => Context.updateExpression
  | .binaryExpression => Context.binaryExpression
  | .logicalExpression => Context.logicalExpression
  | .assignmentExpression => Context.assignmentExpression
  | .conditionalExpression => Context.conditionalExpression
  | .sequenceExpression => Context.sequenceExpression
  | .program => Context.program
  | .blockStatement => Context.blockStatement
  | .expressionStatement => Context.expressionStatement
  | .emptyStatement => fun _ => Context.emptyStatement
  | .variableDeclaration => Context.variableDeclaration
  | .ifStatement => Context.ifStatement
  | .forStatement => Context.forStatement
  | .forInStatement => Context.forInStatement
  | .forOfStatement => Context.forOfStatement
  | .whileStatement => Context.whileStatement
  | .doWhileStatement => Context.doWhileStatement
  | .switchStatement => Context.switchStatement
  | .breakStatement => Context.breakStatement
  | .continueStatement => Context.continueStatement
  | .returnStatement => Context.returnStatement
  | .throwStatement => Context.throwStatement
  | .tryStatement => Context.tryStatement
  | .host name => (host.rule name).getD fun _ _ _ => .fail (.custom "no such rule")

end ScriptCore

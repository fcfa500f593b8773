/-!
# Node tags

The kind of a syntax node is an open set of strings, so that a host may bring kinds of its own. Here
are the three predicates that hoisting rests on and, for the known kinds, the order in which a node's
children are visited.
-/
namespace ScriptCore.Tag

/-- Function nodes: the boundary of `var` and function declarations. -/
def isFunction (tag : String) : Bool :=
  tag = "FunctionDeclaration" || tag = "FunctionExpression" || tag = "ArrowFunctionExpression"

/-- Class nodes, a boundary of `var` declarations as well. -/
def isClass (tag : String) : Bool := tag = "ClassDeclaration" || tag = "ClassExpression"

/-- Block-like nodes: each opens a lexical scope of its own. -/
def isBlock (tag : String) : Bool :=
  tag = "BlockStatement" || tag = "ForStatement" || tag = "SwitchStatement" || tag = "ClassBody"

/-- The properties of a known kind that hold its children, in the order of visiting. -/
def visitorKeys? (tag : String) : Option (List String) :=
  match tag with
  | "AssignmentExpression" | "AssignmentPattern" | "BinaryExpression" | "LogicalExpression" =>
    some ["left", "right"]
  | "ArrayExpression" | "ArrayPattern" => some ["elements"]
  | "ArrowFunctionExpression" => some ["params", "body"]
  | "AwaitExpression" | "ReturnStatement" | "SpreadElement" | "RestElement" | "ThrowStatement"
  | "UnaryExpression" | "UpdateExpression" | "YieldExpression" => some ["argument"]
  | "BlockStatement" | "ClassBody" | "Program" => some ["body"]
  | "BreakStatement" | "ContinueStatement" => some ["label"]
  | "CallExpression" | "NewExpression" => some ["callee", "arguments"]
  | "CatchClause" => some ["param", "body"]
  | "ClassDeclaration" | "ClassExpression" => some ["id", "superClass", "body"]
  | "ConditionalExpression" | "IfStatement" => some ["test", "consequent", "alternate"]
  | "DebuggerStatement" | "EmptyStatement" | "Identifier" | "Literal" | "Super"
  | "TemplateElement" | "ThisExpression" => some []
  | "DoWhileStatement" => some ["body", "test"]
  | "ExpressionStatement" => some ["expression"]
  | "ForStatement" => some ["init", "test", "update", "body"]
  | "ForInStatement" | "ForOfStatement" => some ["left", "right", "body"]
  | "FunctionDeclaration" | "FunctionExpression" => some ["id", "params", "body"]
  | "ImportDeclaration" => some ["specifiers", "source"]
  | "ImportDefaultSpecifier" | "ImportNamespaceSpecifier" => some ["local"]
  | "ImportSpecifier" => some ["imported", "local"]
  | "LabeledStatement" => some ["label", "body"]
  | "MemberExpression" => some ["object", "property"]
  | "MethodDefinition" | "Property" => some ["key", "value"]
  | "ObjectExpression" | "ObjectPattern" => some ["properties"]
  | "SequenceExpression" => some ["expressions"]
  | "SwitchStatement" => some ["discriminant", "cases"]
  | "SwitchCase" => some ["test", "consequent"]
  | "TemplateLiteral" => some ["quasis", "expressions"]
  | "TryStatement" => some ["block", "handler", "finalizer"]
  | "VariableDeclaration" => some ["declarations"]
  | "VariableDeclarator" => some ["id", "init"]
  | "WhileStatement" => some ["test", "body"]
  | _ => none

end ScriptCore.Tag

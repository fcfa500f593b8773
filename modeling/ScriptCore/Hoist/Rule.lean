import ScriptCore.Hoist.Names
import ScriptCore.Scope.Cells
import ScriptCore.Tree.Walker

/-!
# Resolving names

A walk that gives every visited node its scope and declares names ahead of evaluation, as cells that
hold `undefined`. Every block-like node below the root opens a scope. A `var` declarator and a
function declaration declare in the nearest function, class or root; `let`, `const` and class
declarations in the nearest block; a catch parameter in the body of its clause; an import in the scope
it stands in. Bodies of functions and classes are not entered: a function's body is resolved at each
call, against the scope of that call.
-/
namespace ScriptCore

namespace Hoist

/-- A rule of the walk. -/
inductive Rule where
  /-- record parent and scope of a node, opening a scope for a block-like one -/
  | link
  | variableDeclarator
  | functionDeclaration
  /-- leave the children of the node for later -/
  | skip
  | classDeclaration
  /-- let a named class expression refer to itself -/
  | classBody
  /-- declare the parameter of a catch clause in its body -/
  | catchBlock
  | importSpecifier
  | host (name : String)
  deriving DecidableEq, Repr

/-- What a resolution has made so far. -/
structure State where
  links : Links
  scopes : ScopeGraph

namespace State

/-- Declare names in a scope on behalf of a node. A name that the scope already owns keeps its value,
so that parameters, globals and earlier declarations survive. -/
def declare (s : State) (node : NodeId) (scope : ScopeId) (names : List String) : State where
  links := s.links.setTarget node scope
  scopes := names.foldl
    (fun g name => if g.hasOwn scope name then g else g.declare scope name .undefined) s.scopes

end State

/-- The name of the identifier in a field of a node, as a list of at most one. -/
def nameIn (t : Tree) (node : NodeId) (key : String) : List String :=
  ((t.child? node key).bind t.identifierName?).toList

def link : Handler State := fun t node parent s =>
  match parent with
  | none => (.descend, s)
  | some parent =>
    let links := s.links.setParent node parent
    let outer := links.scopeOrRoot parent
    if Tag.isBlock (t.tag node) then
      let (scope, g) := s.scopes.addChild outer
      (.descend, ⟨links.setScope node scope, g.setOwner scope (some node)⟩)
    else (.descend, ⟨links.setScope node outer, s.scopes⟩)

/-- Declare the names of a declarator; without a declaration around it, it counts as `var`. -/
def variableDeclarator : Handler State := fun t node parent s =>
  let isVar := ((parent.bind fun p => t.text? p "kind").getD "var") == "var"
  let target :=
    if isVar then s.links.functionScope t s.scopes (s.links.scopeOrRoot node)
    else s.links.scopeOrRoot (s.links.blockNode t node)
  let names := ((t.child? node "id").map t.bindingNames).getD []
  (.descend, s.declare node target names)

/-- Declare the name of a function declaration and leave its body to its calls. -/
def functionDeclaration : Handler State := fun t node _ s =>
  let target := s.links.functionScope t s.scopes (s.links.scopeOrRoot node)
  (.skip, s.declare node target (nameIn t node "id"))

def classDeclaration : Handler State := fun t node _ s =>
  let target := s.links.scopeOrRoot (s.links.blockNode t node)
  (.descend, s.declare node target (nameIn t node "id"))

/-- Declare the name of a class expression inside its body. -/
def classBody : Handler State := fun t node parent s =>
  let selfName := match parent with
    | some p => if t.is p "ClassExpression" then nameIn t p "id" else []
    | none => []
  match selfName with
  | [] => (.skip, s)
  | names => (.skip, s.declare node (s.links.scopeOrRoot node) names)

/-- Declare the parameter of a catch clause inside its body. -/
def catchBlock : Handler State := fun t node parent s =>
  match parent with
  | some clause =>
    if t.is clause "CatchClause" then
      match t.child? clause "param" with
      | some param =>
        (.descend, s.declare node (s.links.scopeOrRoot node) (t.bindingNames param))
      | none => (.descend, s)
    else (.descend, s)
  | none => (.descend, s)

def importSpecifier : Handler State := fun t node _ s =>
  (.descend, s.declare node (s.links.scopeOrRoot node) (nameIn t node "local"))

abbrev HostRules := String → Option (Handler State)

/-- What a rule does; a rule that the host does not have does nothing. -/
def Rule.meaning (host : HostRules) : Rule → Handler State
  | .link => Hoist.link
  | .variableDeclarator => Hoist.variableDeclarator
  | .functionDeclaration => Hoist.functionDeclaration
  | .skip => fun _ _ _ s => (.skip, s)
  | .classDeclaration => Hoist.classDeclaration
  | .classBody => Hoist.classBody
  | .catchBlock => Hoist.catchBlock
  | .importSpecifier => Hoist.importSpecifier
  | .host name => (host name).getD fun _ _ _ s => (.descend, s)

def tagRules : List (String × Rule) :=
  [("VariableDeclarator", .variableDeclarator),
   ("FunctionDeclaration", .functionDeclaration),
   ("FunctionExpression", .skip),
   ("ArrowFunctionExpression", .skip),
   ("ClassDeclaration", .classDeclaration),
   ("ClassBody", .classBody),
   ("BlockStatement", .catchBlock),
   ("ImportSpecifier", .importSpecifier),
   ("ImportDefaultSpecifier", .importSpecifier),
   ("ImportNamespaceSpecifier", .importSpecifier)]

def defaultRules : Walker Rule where
  any := some .link
  byTag := Dict.ofList tagRules

end Hoist

/-- A table of hoisting rules with the host's part of their meaning. -/
structure Resolver where
  rules : Walker Hoist.Rule := Hoist.defaultRules
  host : Hoist.HostRules := fun _ => none

namespace Resolver

/-- Resolve the subtree of a node against a scope. Whether a rule descends depends on the node alone, so
a walk that ends visits no node twice on one path. -/
def run (r : Resolver) (t : Tree) (root : NodeId) (scope : ScopeId) (g : ScopeGraph) :
    Hoist.State :=
  r.rules.walkFrom (Hoist.Rule.meaning r.host) t t.size root ⟨.start root scope, g⟩

/-- Resolve a whole tree against a root scope, which comes to belong to the tree's root and must not
belong to a node before. -/
def resolve (r : Resolver) (t : Tree) (scope : ScopeId) (g : ScopeGraph) :
    Except StructuralError Hoist.State :=
  match (g.get scope).owner with
  | some owner => .error (.rootScopeAlreadyBound owner)
  | none => .ok (r.run t t.root scope (g.setOwner scope (some t.root)))

/-- Resolve a function body against the scope of a call. -/
def resolveBody (r : Resolver) (t : Tree) (body : NodeId) (scope : ScopeId) (g : ScopeGraph) :
    Hoist.State :=
  let g := if (g.get scope).owner.isNone then g.setOwner scope (some body) else g
  r.run t body scope g

end Resolver

/-- A tree with the scope and the links of its resolution. -/
structure Resolved where
  tree : Tree
  rootScope : ScopeId
  links : Links

end ScriptCore

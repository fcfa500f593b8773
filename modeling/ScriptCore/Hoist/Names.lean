import ScriptCore.Hoist.Links
import ScriptCore.Scope.Graph

/-!
# Where declarations go

The names that a declaration binds, the function scope that a `var` or function declaration rises to,
and the block that a `let`, `const` or class declaration belongs to.
-/
namespace ScriptCore

namespace Tree

/-- The names bound by a target down to `fuel` levels. -/
def bindingNamesWithin (t : Tree) : Nat → NodeId → List String
  | 0, _ => []
  | fuel + 1, pattern =>
    let inner (child : Option NodeId) : List String :=
      match child with
      | some child => bindingNamesWithin t fuel child
      | none => []
    match t.tag pattern with
    | "Identifier" => (t.identifierName? pattern).toList
    | "ObjectPattern" =>
      (t.present pattern "properties").flatMap fun property =>
        inner (if t.is property "Property" then t.child? property "value" else some property)
    | "ArrayPattern" =>
      (t.present pattern "elements").flatMap fun element => inner (some element)
    | "AssignmentPattern" => inner (t.child? pattern "left")
    | "RestElement" => inner (t.child? pattern "argument")
    | _ => []

/-- The names bound by a declaration target, an identifier or a destructuring pattern, in source
order. -/
def bindingNames (t : Tree) (pattern : NodeId) : List String := t.bindingNamesWithin t.size pattern

end Tree

namespace Links

/-- From a node up to the nearest function or class node or the root, at most `fuel` steps. -/
def functionNodeWithin (l : Links) (t : Tree) : Nat → NodeId → NodeId
  | 0, node => node
  | fuel + 1, node =>
    let tag := t.tag node
    if node = l.root || Tag.isFunction tag || Tag.isClass tag then node
    else
      match l.parent? node with
      | some parent => functionNodeWithin l t fuel parent
      | none => node

/-- The scope that a function-scoped declaration made in `scope` goes to: that of the nearest function
or class node or root above the scope's owner. A scope whose owner was not visited keeps it. -/
def functionScope (l : Links) (t : Tree) (g : ScopeGraph) (scope : ScopeId) : ScopeId :=
  match (g.get scope).owner.filter l.contains with
  | some owner => l.scopeOrRoot (l.functionNodeWithin t t.size owner)
  | none => scope

/-- From a node up to the nearest strict ancestor that is block-like or the root, at most `fuel`
steps. -/
def blockNodeWithin (l : Links) (t : Tree) : Nat → NodeId → NodeId
  | 0, node => node
  | fuel + 1, node =>
    match l.parent? node with
    | some parent =>
      if parent = l.root || Tag.isBlock (t.tag parent) then parent
      else blockNodeWithin l t fuel parent
    | none => node

/-- The nearest strict ancestor of a node that is block-like or the root; a node without a parent is
its own. -/
def blockNode (l : Links) (t : Tree) (node : NodeId) : NodeId := l.blockNodeWithin t t.size node

end Links

end ScriptCore

import ScriptCore.Data.Slots
import ScriptCore.Tree.Basic
import ScriptCore.Value.Basic

/-!
# Links

What a resolution records about the nodes it visits: the parent through which a node was reached, the
scope it is evaluated in, and for a declaring node the scope that its names went to. The program has
one set of links, and each call gets another one for its body.
-/
namespace ScriptCore

/-- The record of one resolution. -/
structure Links where
  /-- the node the resolution started at -/
  root : NodeId
  /-- the scope of that node -/
  rootScope : ScopeId
  parents : Slots NodeId
  scopes : Slots ScopeId
  targets : Slots ScopeId

namespace Links

/-- Only the root is visited. -/
def start (root : NodeId) (rootScope : ScopeId) : Links where
  root
  rootScope
  parents := ∅
  scopes := (∅ : Slots ScopeId).set root rootScope
  targets := ∅

variable (l : Links)

def parent? (node : NodeId) : Option NodeId := l.parents.get? node

/-- The scope of a visited node; a block-like node has the one it opened. -/
def scope? (node : NodeId) : Option ScopeId := l.scopes.get? node

/-- The scope of a node, the root scope if it was not visited. -/
def scopeOrRoot (node : NodeId) : ScopeId := (l.scope? node).getD l.rootScope

/-- The scope that a declaring node's names went to. -/
def target? (node : NodeId) : Option ScopeId := l.targets.get? node

def contains (node : NodeId) : Bool := (l.scope? node).isSome

def count : Nat := l.scopes.count

def setParent (node parent : NodeId) : Links := { l with parents := l.parents.set node parent }

def setScope (node : NodeId) (scope : ScopeId) : Links :=
  { l with scopes := l.scopes.set node scope }

def setTarget (node : NodeId) (scope : ScopeId) : Links :=
  { l with targets := l.targets.set node scope }

/-! ## Reading after a record -/

theorem scope?_setScope (node n : NodeId) (scope : ScopeId) :
    (l.setScope node scope).scope? n = if node = n then some scope else l.scope? n :=
  Slots.get?_set _ _ _ _

theorem parent?_setParent (node n parent : NodeId) :
    (l.setParent node parent).parent? n = if node = n then some parent else l.parent? n :=
  Slots.get?_set _ _ _ _

theorem target?_setTarget (node n : NodeId) (scope : ScopeId) :
    (l.setTarget node scope).target? n = if node = n then some scope else l.target? n :=
  Slots.get?_set _ _ _ _

@[simp] theorem scope?_setParent (node n parent : NodeId) :
    (l.setParent node parent).scope? n = l.scope? n := rfl

@[simp] theorem scope?_setTarget (node n : NodeId) (scope : ScopeId) :
    (l.setTarget node scope).scope? n = l.scope? n := rfl

@[simp] theorem parent?_setScope (node n : NodeId) (scope : ScopeId) :
    (l.setScope node scope).parent? n = l.parent? n := rfl

@[simp] theorem parent?_setTarget (node n : NodeId) (scope : ScopeId) :
    (l.setTarget node scope).parent? n = l.parent? n := rfl

@[simp] theorem target?_setParent (node n parent : NodeId) :
    (l.setParent node parent).target? n = l.target? n := rfl

@[simp] theorem target?_setScope (node n : NodeId) (scope : ScopeId) :
    (l.setScope node scope).target? n = l.target? n := rfl

theorem scope?_start (root n : NodeId) (scope : ScopeId) :
    (start root scope).scope? n = if root = n then some scope else none := by
  rw [scope?, start, Slots.get?_set, Slots.get?_empty]

end Links

end ScriptCore

import ScriptCore.Hoist.Links
import ScriptCore.Scope.Liveness
import ScriptCore.World

/-!
# Snapshots of scopes

The live scopes under a scope as a list, in pre-order; the place of a scope in the list is its number.
-/
namespace ScriptCore

namespace ScopeGraph

/-- The live scopes in the subtree of a scope, in pre-order, down to `fuel` levels. -/
def subtreeWithin (g : ScopeGraph) (live : Marks) : Nat → ScopeId → List ScopeId
  | 0, _ => []
  | fuel + 1, s =>
    s :: ((g.get s).children.toList.filter live.has).flatMap (subtreeWithin g live fuel)

/-- The scopes in the subtree of a scope that live while `holders` are held, in pre-order. -/
def subtree (g : ScopeGraph) (holders : List ScopeId) (s : ScopeId) : List ScopeId :=
  g.subtreeWithin (g.live holders) g.size s

end ScopeGraph

namespace Links

/-- The scopes that links hold. -/
def held (l : Links) : List ScopeId :=
  l.rootScope :: (l.scopes.toList.map Prod.snd ++ l.targets.toList.map Prod.snd)

end Links

end ScriptCore

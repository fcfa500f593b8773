import ScriptCore.World
import ScriptCore.Data.Slots

/-!
# Scopes within reach

Which scopes a world still holds: those named from outside, and those captured by a closure that can
be reached from their cells, through arrays, objects and other closures, together with the ancestors
of all of them.
-/
namespace ScriptCore.World

variable (w : World)

/-- What was reached so far. -/
structure Reached where
  scopes : Slots Unit := ∅
  arrays : Slots Unit := ∅
  objects : Slots Unit := ∅
  closures : Slots Unit := ∅

/-- Something to look into: a scope or a value. -/
inductive Lead where
  | scope (id : ScopeId)
  | value (value : Value)

/-- Mark what a lead leads to, and give the leads inside it if it was not marked before. -/
def follow (lead : Lead) (r : Reached) : List Lead × Reached :=
  match lead with
  | .scope id =>
    if (r.scopes.get? id).isSome then ([], r)
    else
      let scope := w.scopes.get id
      (scope.parent.toList.map .scope ++ scope.cells.entries.map fun cell => .value cell.2,
        { r with scopes := r.scopes.set id () })
  | .value (.array id) =>
    if (r.arrays.get? id).isSome then ([], r)
    else ((w.array id).toList.map .value, { r with arrays := r.arrays.set id () })
  | .value (.object id) =>
    if (r.objects.get? id).isSome then ([], r)
    else
      ((w.object id).entries.map fun field => .value field.2,
        { r with objects := r.objects.set id () })
  | .value (.closure id) =>
    if (r.closures.get? id).isSome then ([], r)
    else
      ((w.closure? id).toList.map fun closure => .scope closure.scope,
        { r with closures := r.closures.set id () })
  | .value _ => ([], r)

/-- Follow leads, at most `fuel` of them. -/
def followAll : Nat → List Lead → Reached → Reached
  | 0, _, r => r
  | _ + 1, [], r => r
  | fuel + 1, lead :: rest, r =>
    let (inner, r) := w.follow lead r
    followAll fuel (inner ++ rest) r

/-- The number of leads in the whole world. -/
def leadCount : Nat :=
  w.scopes.scopes.foldl (fun n scope => n + scope.cells.size + 1) 0
    + w.arrays.foldl (fun n items => n + items.size) 0
    + w.objects.foldl (fun n fields => n + fields.size) 0
    + w.closures.size

/-- The scopes within reach of the given ones, the ancestors included. -/
def scopesInReach (starts : List ScopeId) : List ScopeId :=
  let leads := starts.map .scope
  let r := w.followAll (leads.length + w.leadCount + 1) leads {}
  (List.range w.scopes.size).filter fun id => (r.scopes.get? id).isSome

end ScriptCore.World

import Std.Data.TreeSet.Basic
import ScriptCore.Scope.Cells
import ScriptCore.Value.Closure

/-!
# Worlds

Everything that an evaluation can read and change: the scopes, the arrays, objects and closures, and
the lines that the host has logged. Arrays and objects are changed in place, so every holder of an id
sees the change; nothing is ever removed.
-/
namespace ScriptCore

/-- The state of an evaluation. -/
structure World where
  scopes : ScopeGraph := {}
  arrays : Array (Array Value) := #[]
  objects : Array (Dict Value) := #[]
  closures : Array Closure := #[]
  log : Array String := #[]

namespace World

variable (w : World)

/-- The arrays, or the objects, that are open on the way down to a value while a world is written out.
A long way is as cheap to ask as a short one. -/
abbrev Opened := Std.TreeSet Nat

def array (id : ArrayId) : Array Value := w.arrays[id]?.getD #[]

def object (id : ObjectId) : Dict Value := w.objects[id]?.getD ∅

def closure? (id : ClosureId) : Option Closure := w.closures[id]?

def newArray (items : Array Value) : Value × World :=
  (.array w.arrays.size, { w with arrays := w.arrays.push items })

def newObject (fields : Dict Value) : Value × World :=
  (.object w.objects.size, { w with objects := w.objects.push fields })

def newClosure (closure : Closure) : Value × World :=
  (.closure w.closures.size, { w with closures := w.closures.push closure })

def modifyArray (id : ArrayId) (f : Array Value → Array Value) : World :=
  { w with arrays := w.arrays.modify id f }

def modifyObject (id : ObjectId) (f : Dict Value → Dict Value) : World :=
  { w with objects := w.objects.modify id f }

def modifyScopes (f : ScopeGraph → ScopeGraph) : World := { w with scopes := f w.scopes }

end World

end ScriptCore

import ScriptCore.Data.Dict
import ScriptCore.Error
import ScriptCore.Value.Basic

/-!
# The scope graph

Scopes form a forest: each has at most one parent and lists its children in the order in which they
were last attached. A parent link is followed upwards only as many times as there are scopes, so that
every function here is total on every graph; on a forest that is never too few.
-/
namespace ScriptCore

/-- A lexical scope. -/
structure Scope where
  name : Option String := none
  /-- the cells it owns, in the order of declaration -/
  cells : Dict Value := ∅
  parent : Option ScopeId := none
  children : Array ScopeId := #[]
  /-- the syntax node it belongs to -/
  owner : Option NodeId := none
  /-- it holds the `this` and `arguments` of an ordinary call -/
  dynamic : Bool := false
  deriving Inhabited

/-- All scopes ever made, by id. -/
structure ScopeGraph where
  scopes : Array Scope := #[]
  deriving Inhabited

namespace ScopeGraph

variable (g : ScopeGraph)

def size : Nat := g.scopes.size

def get (s : ScopeId) : Scope := g.scopes[s]?.getD {}

def modify (s : ScopeId) (f : Scope → Scope) : ScopeGraph := ⟨g.scopes.modify s f⟩

def add (scope : Scope) : ScopeId × ScopeGraph := (g.scopes.size, ⟨g.scopes.push scope⟩)

def addRoot (name : Option String) : ScopeId × ScopeGraph := g.add { name }

def addChild (parent : ScopeId) : ScopeId × ScopeGraph :=
  let (child, g) := g.add { parent := some parent }
  (child, g.modify parent fun s => { s with children := s.children.push child })

def parent? (s : ScopeId) : Option ScopeId := (g.get s).parent

/-- A scope and its ancestors, up to `fuel` of them. -/
def ancestorsWithin : Nat → ScopeId → List ScopeId
  | 0, _ => []
  | fuel + 1, s =>
    s :: match g.parent? s with
      | some p => ancestorsWithin fuel p
      | none => []

def ancestors (s : ScopeId) : List ScopeId := g.ancestorsWithin g.size s

def depth (s : ScopeId) : Nat := (g.ancestors s).length - 1

def hasChild (parent child : ScopeId) : Bool := g.parent? child == some parent

/-- Detach a child, which becomes a root; tells whether it was a child. -/
def detach (parent child : ScopeId) : Bool × ScopeGraph :=
  if (g.get parent).children.contains child then
    let g := g.modify parent fun s => { s with children := s.children.erase child }
    (true, g.modify child fun s => { s with parent := none })
  else (false, g)

/-- Attach a scope beneath another, as its last child, after detaching it from where it was. Tells
whether it moved; a scope cannot be attached beneath itself or its descendants. -/
def attach (parent child : ScopeId) : Except StructuralError (Bool × ScopeGraph) :=
  if child = parent ∨ child ∈ g.ancestors parent then .error .scopeCycle
  else if g.parent? child = some parent then .ok (false, g)
  else
    let g := match g.parent? child with
      | some previous => (g.detach previous child).2
      | none => g
    let g := g.modify child fun s => { s with parent := some parent }
    .ok (true, g.modify parent fun s => { s with children := s.children.push child })

/-! ## Metadata -/

def setName (s : ScopeId) (name : Option String) : ScopeGraph :=
  g.modify s fun scope => { scope with name }

def setOwner (s : ScopeId) (owner : Option NodeId) : ScopeGraph :=
  g.modify s fun scope => { scope with owner }

def markDynamic (s : ScopeId) : ScopeGraph := g.modify s fun scope => { scope with dynamic := true }

/-- The nearest scope, the given one included, that holds its own `this` and `arguments`. -/
def nearestDynamic? (s : ScopeId) : Option ScopeId := (g.ancestors s).find? fun a => (g.get a).dynamic

/-! ## Reading after a change -/

@[simp] theorem size_modify (s : ScopeId) (f : Scope → Scope) : (g.modify s f).size = g.size := by
  simp [size, modify]

/-- Changing a scope shows in that scope and in no other. -/
theorem get_modify (s t : ScopeId) (f : Scope → Scope) :
    (g.modify s f).get t = if s = t ∧ t < g.size then f (g.get t) else g.get t := by
  simp only [get, modify, size, Array.getElem?_modify]
  by_cases hst : s = t
  · subst hst
    by_cases hs : s < g.scopes.size
    · simp [hs]
    · simp [hs]
  · simp [hst]

@[simp] theorem size_add (scope : Scope) : (g.add scope).2.size = g.size + 1 := by
  simp [size, add]

/-- Adding a scope leaves the others as they are. -/
theorem get_add (scope : Scope) (t : ScopeId) :
    (g.add scope).2.get t = if t = g.size then scope else g.get t := by
  by_cases ht : t = g.scopes.size <;> simp [get, add, size, Array.getElem?_push, ht]

@[simp] theorem fst_addChild (parent : ScopeId) : (g.addChild parent).1 = g.size := rfl

@[simp] theorem size_addChild (parent : ScopeId) : (g.addChild parent).2.size = g.size + 1 := by
  simp [addChild]

end ScopeGraph

end ScriptCore

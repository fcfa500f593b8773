import ScriptCore.Scope.Graph

/-!
# Cells and lexical lookup

A name means the cell of the nearest scope that owns it. Reading what no scope owns gives nothing,
which differs from a declared cell that still holds `undefined`; writing it declares a cell in the
scope of the write.
-/
namespace ScriptCore.ScopeGraph

variable (g : ScopeGraph)

/-! ## The cells of one scope -/

/-- Write a scope's own cell, in place or as its last one. -/
def declare (s : ScopeId) (name : String) (value : Value) : ScopeGraph :=
  g.modify s fun scope => { scope with cells := scope.cells.insert name value }

def hasOwn (s : ScopeId) (name : String) : Bool := (g.get s).cells.contains name

def getOwn? (s : ScopeId) (name : String) : Option Value := (g.get s).cells.get? name

/-- Remove a scope's own cell; tells whether there was one. -/
def removeOwn (s : ScopeId) (name : String) : Bool × ScopeGraph :=
  if g.hasOwn s name then
    (true, g.modify s fun scope => { scope with cells := scope.cells.erase name })
  else (false, g)

def ownNames (s : ScopeId) : List String := (g.get s).cells.keys

def countOwn (s : ScopeId) : Nat := (g.get s).cells.size

/-! ## Lookup -/

/-- The nearest owner of a name among `fuel` scopes, with the cell's value. -/
def resolveWithin (name : String) : Nat → ScopeId → Option (ScopeId × Value)
  | 0, _ => none
  | fuel + 1, s =>
    let scope := g.get s
    match scope.cells.get? name with
    | some value => some (s, value)
    | none =>
      match scope.parent with
      | some p => resolveWithin name fuel p
      | none => none

/-- The nearest scope owning a name, the given one included, with the cell's value. -/
def resolve? (s : ScopeId) (name : String) : Option (ScopeId × Value) :=
  g.resolveWithin name g.size s

/-- The value of the nearest cell. -/
def get? (s : ScopeId) (name : String) : Option Value := (g.resolve? s name).map Prod.snd

def has (s : ScopeId) (name : String) : Bool := (g.resolve? s name).isSome

/-- Write the nearest cell, or declare one here if there is none. -/
def set (s : ScopeId) (name : String) (value : Value) : ScopeGraph :=
  match g.resolve? s name with
  | some (owner, _) => g.declare owner name value
  | none => g.declare s name value

/-- Remove the nearest cell; tells whether there was one. -/
def removeNearest (s : ScopeId) (name : String) : Bool × ScopeGraph :=
  match g.resolve? s name with
  | some (owner, _) => g.removeOwn owner name
  | none => (false, g)

/-- Remove every cell of the name on the chain; tells how many there were. -/
def removeAll (s : ScopeId) (name : String) : Nat × ScopeGraph :=
  (g.ancestors s).foldl (fun (count, g) a =>
    match g.removeOwn a name with
    | (true, g) => (count + 1, g)
    | (false, g) => (count, g)) (0, g)

/-- All names in sight, innermost scope first; a shadowed name is listed once per owner. -/
def allNames (s : ScopeId) : List String := (g.ancestors s).flatMap g.ownNames

def countReachable (s : ScopeId) : Nat := (g.allNames s).eraseDups.length

end ScriptCore.ScopeGraph

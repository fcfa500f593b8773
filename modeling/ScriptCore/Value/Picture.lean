import ScriptCore.Data.Slots
import ScriptCore.World

/-!
# Pictures of values

A value drawn out as a finite tree. Arrays, objects and closures are numbered in the order in which
they are first drawn, and only the first drawing of each shows its content; so a picture is finite
whatever the values contain, and shows which of them are the same.
-/
namespace ScriptCore

/-- What has an identity of its own in a world. -/
inductive Thing where
  | array (id : ArrayId)
  | object (id : ObjectId)
  | closure (id : ClosureId)
  deriving DecidableEq, Repr

/-- What a picture of a closure tells about its captured scope, as it is at the time of drawing. -/
structure CapturedScope where
  owner : Option NodeId
  depth : Nat
  names : List String

/-- A value drawn out. -/
inductive Picture where
  | undefined
  | null
  | bool (value : Bool)
  | number (value : Float)
  | str (value : String)
  | native (name : String)
  | array (label : Nat) (items : List Picture)
  | object (label : Nat) (fields : List (String × Picture))
  | closure (label : Nat) (closure : Closure) (scope : CapturedScope)
  /-- something drawn before, by its number -/
  | again (label : Nat)

namespace Picture

/-- The numbers of the things drawn so far, which are numbered from one. -/
structure Drawn where
  count : Nat := 0
  arrays : Slots Nat := ∅
  objects : Slots Nat := ∅
  closures : Slots Nat := ∅
  deriving Inhabited

namespace Drawn

/-- The number of a thing that was drawn before. -/
def label? (drawn : Drawn) : Thing → Option Nat
  | .array id => drawn.arrays.get? id
  | .object id => drawn.objects.get? id
  | .closure id => drawn.closures.get? id

/-- Give a thing the next number. -/
def add (drawn : Drawn) : Thing → Nat × Drawn
  | .array id => (drawn.count + 1,
    { drawn with count := drawn.count + 1, arrays := drawn.arrays.set id (drawn.count + 1) })
  | .object id => (drawn.count + 1,
    { drawn with count := drawn.count + 1, objects := drawn.objects.set id (drawn.count + 1) })
  | .closure id => (drawn.count + 1,
    { drawn with count := drawn.count + 1, closures := drawn.closures.set id (drawn.count + 1) })

end Drawn

/-- Draw a thing for the first time, or refer to its drawing. -/
def drawThing (thing : Thing) (content : Nat → StateM Drawn Picture) : StateM Drawn Picture := do
  match (← get).label? thing with
  | some label => pure (.again label)
  | none => content (← modifyGet fun drawn => drawn.add thing)

/-- Draw a value whose content opens at most `fuel` levels. -/
def drawWithin (w : World) : Nat → Value → StateM Drawn Picture
  | fuel, value =>
    match value with
    | .undefined => pure .undefined
    | .null => pure .null
    | .bool b => pure (.bool b)
    | .number n => pure (.number n)
    | .str s => pure (.str s)
    | .native name => pure (.native name)
    | .closure id =>
      drawThing (.closure id) fun label =>
        match w.closure? id with
        | some c =>
          let scope := w.scopes.get c.scope
          pure (.closure label c
            ⟨scope.owner, w.scopes.depth c.scope, scope.cells.keys⟩)
        | none => pure .undefined
    | .array id =>
      match fuel with
      | 0 => pure .undefined
      | fuel + 1 =>
        drawThing (.array id) fun label => do
          let items ← (w.array id).toList.mapM (drawWithin w fuel)
          pure (.array label items)
    | .object id =>
      match fuel with
      | 0 => pure .undefined
      | fuel + 1 =>
        drawThing (.object id) fun label => do
          let fields ← (w.object id).entries.mapM fun entry => do
            let picture ← drawWithin w fuel entry.2
            pure (entry.1, picture)
          pure (.object label fields)

/-- Draw a value. Each level opens a thing that was not drawn before, or refers to one. -/
def draw (w : World) (value : Value) : StateM Drawn Picture :=
  drawWithin w (w.arrays.size + w.objects.size + 1) value

end Picture

end ScriptCore

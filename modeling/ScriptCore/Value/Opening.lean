import ScriptCore.World

/-!
# What is open while a value is written

A value is written down with a record of what is open on the way down to it. An array or object is entered in
the record while its content is written, and taken out again, so that it is recognised inside itself and
nowhere else.
-/
namespace ScriptCore

/-- How something is found, entered and left in a record of what is open. -/
structure Guard (σ : Type) where
  isOpen : σ → Bool
  enter : σ → σ
  leave : σ → σ

/-- Write the content of something inside it; what is open already is written as `again`. -/
def Guard.write {σ : Type} (g : Guard σ) (again : String) (content : StateM σ String) : StateM σ String := do
  if g.isOpen (← get) then pure again
  else
    modify g.enter
    let text ← content
    modify g.leave
    pure text

/-- An array among the open ones, or an object among the open ones. -/
def World.Opened.guard (id : Nat) : Guard World.Opened where
  isOpen opened := opened.contains id
  enter opened := opened.insert id
  leave opened := opened.erase id

end ScriptCore

/-!
# Slots

A partial map from small natural numbers, such as node ids: a row of slots that grows as far as it is
written. Reading a slot that was never written gives nothing.
-/
namespace ScriptCore

/-- Slots numbered from zero, each empty or filled. -/
structure Slots (α : Type) where
  cells : Array (Option α)

namespace Slots

variable {α : Type}

def empty : Slots α := ⟨#[]⟩

instance : EmptyCollection (Slots α) := ⟨empty⟩
instance : Inhabited (Slots α) := ⟨empty⟩

def get? (s : Slots α) (i : Nat) : Option α := s.cells[i]?.join

/-- Fill a slot, over what it may hold. -/
def set (s : Slots α) (i : Nat) (a : α) : Slots α :=
  ⟨(s.cells ++ Array.replicate (i + 1 - s.cells.size) none).setIfInBounds i (some a)⟩

def count (s : Slots α) : Nat := s.cells.foldl (fun n c => if c.isSome then n + 1 else n) 0

def toList (s : Slots α) : List (Nat × α) :=
  (List.range s.cells.size).filterMap fun i => (s.get? i).map fun a => (i, a)

@[simp] theorem get?_empty (i : Nat) : (∅ : Slots α).get? i = none := by
  simp [get?, EmptyCollection.emptyCollection, empty]

/-- Filling a slot shows in that slot and in no other. -/
theorem get?_set (s : Slots α) (i j : Nat) (a : α) :
    (s.set i a).get? j = if i = j then some a else s.get? j := by
  have hsize : i < s.cells.size + (i + 1 - s.cells.size) := by omega
  simp only [get?, set, Array.getElem?_setIfInBounds]
  by_cases h : i = j
  · subst h
    simp [hsize]
  · simp only [h, if_false]
    rw [Array.getElem?_append]
    split
    · rfl
    next hj =>
      have : s.cells[j]? = none := Array.getElem?_eq_none (by omega)
      simp only [this, Array.getElem?_replicate]
      split <;> rfl

end Slots

end ScriptCore

import Mathlib.Logic.Relation
import ScriptCore.Scope.Cells

/-!
# Changes of the scope graph from inside

Evaluations that work in scopes with ids from `n` on change the graph in few ways: they open scopes,
declare cells in scopes of their own, and assign to names that they find on the lexical chain. Of a scope
below `n`, all of these leave everything as it is but the values of its cells (`Changes.sameShape`).
-/
namespace ScriptCore

/-- What of a scope stays as it is when values are written to its cells. -/
structure Scope.SameShape (before after : Scope) : Prop where
  names : after.cells.keys = before.cells.keys
  parent : after.parent = before.parent
  owner : after.owner = before.owner
  name : after.name = before.name
  dynamic : after.dynamic = before.dynamic

namespace Scope.SameShape

theorem refl (s : Scope) : s.SameShape s := ⟨rfl, rfl, rfl, rfl, rfl⟩

theorem trans {a b c : Scope} (hab : a.SameShape b) (hbc : b.SameShape c) : a.SameShape c :=
  ⟨hbc.names.trans hab.names, hbc.parent.trans hab.parent, hbc.owner.trans hab.owner,
    hbc.name.trans hab.name, hbc.dynamic.trans hab.dynamic⟩

end Scope.SameShape

namespace ScopeGraph

/-- The owner that a lookup finds has a cell of that name, and lies on the lexical chain. -/
theorem resolveWithin_spec {g : ScopeGraph} {name : String} {fuel : Nat} {s owner : ScopeId}
    {value : Value} (h : g.resolveWithin name fuel s = some (owner, value)) :
    (g.get owner).cells.get? name = some value ∧ owner ∈ g.ancestorsWithin fuel s := by
  fun_induction resolveWithin g name fuel s with
  | case1 => cases h
  | case2 fuel s scope found hfound =>
    simp only [Option.some.injEq, Prod.mk.injEq] at h
    obtain ⟨rfl, rfl⟩ := h
    exact ⟨hfound, by simp [ancestorsWithin]⟩
  | case3 fuel s scope hnone p hp ih =>
    obtain ⟨hcell, hmem⟩ := ih h
    have hparent : g.parent? s = some p := hp
    exact ⟨hcell, by simp [ancestorsWithin, hparent, hmem]⟩
  | case4 => cases h

/-- One change made by evaluations whose scopes have ids from `n` on. -/
inductive Change (n : Nat) (g : ScopeGraph) : ScopeGraph → Prop
  | opened (parent : ScopeId) : Change n g (g.addChild parent).2
  | owned {s : ScopeId} (hs : n ≤ s) (owner : Option NodeId) : Change n g (g.setOwner s owner)
  | marked {s : ScopeId} (hs : n ≤ s) : Change n g (g.markDynamic s)
  /-- a cell of one of their own scopes is written or made -/
  | declared {s : ScopeId} (hs : n ≤ s) (name : String) (value : Value) :
    Change n g (g.declare s name value)
  /-- an assignment writes the cell that the name means on the lexical chain -/
  | assigned {s owner : ScopeId} {old : Value} (hs : n ≤ s) (name : String) (value : Value)
    (hfound : g.resolve? s name = some (owner, old)) : Change n g (g.declare owner name value)

/-- Any number of such changes. -/
abbrev Changes (n : Nat) : ScopeGraph → ScopeGraph → Prop := Relation.ReflTransGen (Change n)

variable {n : Nat} {g g' : ScopeGraph}

theorem Change.size_le (h : Change n g g') : g.size ≤ g'.size := by
  cases h <;> simp [setOwner, markDynamic, declare]

theorem Changes.size_le (h : Changes n g g') : g.size ≤ g'.size := by
  induction h with
  | refl => exact Nat.le_refl _
  | tail _ hstep ih => exact Nat.le_trans ih hstep.size_le

/-- A change to a scope from `n` on does not show below `n`. -/
theorem get_modify_of_le {s t : ScopeId} (f : Scope → Scope) (hs : n ≤ s) (ht : t < n) :
    (g.modify s f).get t = g.get t := by
  rw [get_modify, if_neg]
  rintro ⟨rfl, -⟩
  exact Nat.not_lt.mpr hs ht

/-- Writing a cell that a scope already has keeps the shape of every scope. -/
theorem sameShape_declare {owner t : ScopeId} {name : String} {old : Value} (value : Value)
    (hold : (g.get owner).cells.get? name = some old) :
    (g.get t).SameShape ((g.declare owner name value).get t) := by
  have hmem : name ∈ (g.get owner).cells.keys := by
    rw [← Dict.contains_iff, Dict.contains, hold]
    rfl
  rw [declare, get_modify]
  split
  next h =>
    rw [← h.1]
    exact ⟨by rw [Dict.keys_insert, if_pos hmem], rfl, rfl, rfl, rfl⟩
  · exact .refl _

theorem Change.sameShape (h : Change n g g') (hn : n ≤ g.size) {t : ScopeId} (ht : t < n) :
    (g.get t).SameShape (g'.get t) := by
  cases h with
  | opened parent =>
    have hget : (g.add { parent := some parent }).2.get t = g.get t := by
      rw [get_add, if_neg (Nat.ne_of_lt (Nat.lt_of_lt_of_le ht hn))]
    rw [addChild, get_modify, hget]
    split
    · exact ⟨rfl, rfl, rfl, rfl, rfl⟩
    · exact .refl _
  | owned hs owner => rw [setOwner, get_modify_of_le _ hs ht]; exact .refl _
  | marked hs => rw [markDynamic, get_modify_of_le _ hs ht]; exact .refl _
  | declared hs name value => rw [declare, get_modify_of_le _ hs ht]; exact .refl _
  | assigned hs name value hfound => exact sameShape_declare value (resolveWithin_spec hfound).1

/-- Below `n`, any number of changes keep the shape of a scope. -/
theorem Changes.sameShape (h : Changes n g g') (hn : n ≤ g.size) {t : ScopeId} (ht : t < n) :
    (g.get t).SameShape (g'.get t) := by
  induction h with
  | refl => exact .refl _
  | tail hsteps hstep ih => exact ih.trans (hstep.sameShape (Nat.le_trans hn (Changes.size_le hsteps)) ht)

/-- An assignment is either one to a name that is found, or a declaration where it is made. -/
theorem change_set {s : ScopeId} (hs : n ≤ s) (name : String) (value : Value) :
    Change n g (g.set s name value) := by
  rw [set]
  split
  next owner old hfound => exact .assigned hs name value hfound
  · exact .declared hs name value

end ScopeGraph

end ScriptCore

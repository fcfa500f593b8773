import Mathlib.Data.List.Nodup
import ScriptCore.Proofs.Scope.Change

/-!
# Names of a scope

How declarations and new blocks show in the scopes of a graph: a declaration adds the names that a scope
does not have yet, each once and in order, and a new block leaves the other scopes as they are.
-/
namespace ScriptCore

theorem eraseDups_concat (names : List String) (name : String) :
    (names ++ [name]).eraseDups =
      if name ∈ names then names.eraseDups else names.eraseDups ++ [name] := by
  rw [List.eraseDups_append]
  by_cases h : name ∈ names
  · simp [h, List.removeAll]
  · simp [h, List.removeAll, List.eraseDups_cons]

theorem eraseDups_of_nodup {names : List String} (h : names.Nodup) : names.eraseDups = names := by
  induction names with
  | nil => rfl
  | cons name rest ih =>
    obtain ⟨hname, hrest⟩ := List.nodup_cons.mp h
    have hfilter : rest.filter (fun other => !other == name) = rest := by
      rw [List.filter_eq_self]
      intro other hother
      simpa using fun heq : other = name => hname (heq ▸ hother)
    rw [List.eraseDups_cons, hfilter, ih hrest]

namespace ScopeGraph

/-- Declare names in a scope, except those it has. -/
def declareNew (g : ScopeGraph) (s : ScopeId) (names : List String) : ScopeGraph :=
  names.foldl (fun g name => if g.hasOwn s name then g else g.declare s name .undefined) g

/-- Two graphs that differ in the cells of one scope at most. -/
structure SameBut (own : ScopeId) (g g' : ScopeGraph) : Prop where
  size_eq : g'.size = g.size
  get_eq : ∀ s ≠ own, g'.get s = g.get s
  owner_eq : (g'.get own).owner = (g.get own).owner
  parent_eq : (g'.get own).parent = (g.get own).parent

theorem sameBut_declareNew (g : ScopeGraph) (own : ScopeId) (names : List String) :
    g.SameBut own (g.declareNew own names) := by
  induction names generalizing g with
  | nil => exact ⟨rfl, fun _ _ => rfl, rfl, rfl⟩
  | cons name rest ih =>
    rw [declareNew, List.foldl_cons, ← declareNew]
    split
    · exact ih g
    · obtain ⟨hsize, hget, howner, hparent⟩ := ih (g.declare own name .undefined)
      have hdeclare := get_modify g own
      refine ⟨hsize.trans (size_modify _ _ _), fun s hs => (hget s hs).trans ?_, howner.trans ?_,
        hparent.trans ?_⟩
      · rw [declare, hdeclare, if_neg fun h => hs h.1.symm]
      · rw [declare, hdeclare]
        split <;> rfl
      · rw [declare, hdeclare]
        split <;> rfl

/-- The names of a scope after a declaration are those it had, followed by the new ones, each once. -/
theorem keys_declareNew {g : ScopeGraph} {own : ScopeId} (hown : own < g.size) (names : List String)
    {before : List String} (h : (g.get own).cells.keys = before.eraseDups) :
    ((g.declareNew own names).get own).cells.keys = (before ++ names).eraseDups := by
  induction names generalizing g before with
  | nil => simpa [declareNew] using h
  | cons name rest ih =>
    have hmem : g.hasOwn own name = true ↔ name ∈ before := by
      rw [hasOwn, Dict.contains_iff, h, List.mem_eraseDups]
    rw [declareNew, List.foldl_cons, ← declareNew, List.append_cons]
    split
    next hown' =>
      refine ih hown ?_
      rw [eraseDups_concat, if_pos (hmem.mp hown'), h]
    next hown' =>
      have hnew : name ∉ before := fun hin => hown' (hmem.mpr hin)
      refine ih (by simpa [declare] using hown) ?_
      rw [declare, get_modify, if_pos ⟨rfl, hown⟩, eraseDups_concat, if_neg hnew, Dict.keys_insert,
        h, if_neg (by rwa [List.mem_eraseDups])]

/-- A new scope for a block: empty, beneath another, and its owner's. -/
def openBlock (g : ScopeGraph) (outer : ScopeId) (node : NodeId) : ScopeGraph :=
  (g.addChild outer).2.setOwner g.size (some node)

theorem size_openBlock (g : ScopeGraph) (outer : ScopeId) (node : NodeId) :
    (g.openBlock outer node).size = g.size + 1 := by simp [openBlock, setOwner]

theorem get_openBlock_new (g : ScopeGraph) (outer : ScopeId) (node : NodeId) :
    ((g.openBlock outer node).get g.size).owner = some node ∧
      ((g.openBlock outer node).get g.size).parent = some outer ∧
      ((g.openBlock outer node).get g.size).cells = ∅ := by
  rw [openBlock, setOwner, get_modify, if_pos ⟨rfl, by simp⟩, addChild]
  simp only [get_modify, get_add]
  split <;> simp

theorem get_openBlock_old (g : ScopeGraph) (outer : ScopeId) (node : NodeId) {s : ScopeId}
    (hs : s < g.size) :
    ((g.openBlock outer node).get s).owner = (g.get s).owner ∧
      ((g.openBlock outer node).get s).parent = (g.get s).parent ∧
      ((g.openBlock outer node).get s).cells = (g.get s).cells := by
  have hne : g.size ≠ s := Nat.ne_of_gt hs
  rw [openBlock, setOwner, get_modify, if_neg fun h => hne h.1, addChild]
  simp only [get_modify, get_add, if_neg hne.symm]
  split <;> simp

end ScopeGraph

end ScriptCore

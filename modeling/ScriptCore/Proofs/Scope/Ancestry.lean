import Mathlib.Data.List.Perm.Subperm
import Mathlib.Order.WellFounded
import ScriptCore.Scope.Liveness

/-!
# Chains of parents

A scope graph is rooted when parent links lead to scopes and come to an end. There the list of
ancestors is complete: no chain is longer than there are scopes, so following as many links as that
cuts none short (`Rooted.ancestors_eq`), and the list holds what a chain of links leads to
(`Rooted.mem_ancestors_iff`).
-/
namespace ScriptCore.ScopeGraph

open Relation

/-- One scope is the parent of another. -/
def IsParent (g : ScopeGraph) (p s : ScopeId) : Prop := g.parent? s = some p

instance (g : ScopeGraph) (p s : ScopeId) : Decidable (g.IsParent p s) :=
  inferInstanceAs (Decidable (_ = _))

/-- Parent links lead to scopes, and every chain of them comes to an end. -/
structure Rooted (g : ScopeGraph) : Prop where
  parent_lt : ∀ s p, g.IsParent p s → p < g.size
  ends : WellFounded g.IsParent

variable {g : ScopeGraph}

theorem get_of_le {s : ScopeId} (hs : g.size ≤ s) : g.get s = {} := by
  have hnone : g.scopes[s]? = none := Array.getElem?_eq_none hs
  rw [get, hnone]
  rfl

theorem IsParent.lt {p s : ScopeId} (h : g.IsParent p s) : s < g.size := by
  by_contra hs
  rw [IsParent, parent?, get_of_le (Nat.le_of_not_lt hs)] at h
  cases h

/-- A scope has one parent at most. -/
theorem IsParent.unique {p q s : ScopeId} (hp : g.IsParent p s) (hq : g.IsParent q s) : p = q := by
  have heq : some p = some q := hp.symm.trans hq
  exact Option.some.inj heq

theorem isParent_of_mem_ancestorsWithin {fuel : Nat} {s a : ScopeId}
    (h : a ∈ g.ancestorsWithin fuel s) : ReflTransGen g.IsParent a s := by
  induction fuel generalizing s with
  | zero => cases h
  | succ fuel ih =>
    rw [ancestorsWithin, List.mem_cons] at h
    cases h with
    | inl h => rw [h]
    | inr h =>
      cases hp : g.parent? s with
      | none =>
        rw [hp] at h
        cases h
      | some p =>
        rw [hp] at h
        exact (ih h).tail hp

/-- A list of ancestors that is shorter than it might be stays the same with more fuel. -/
theorem ancestorsWithin_succ_of_length_le {fuel : Nat} {s : ScopeId}
    (h : (g.ancestorsWithin (fuel + 1) s).length ≤ fuel) :
    g.ancestorsWithin (fuel + 1) s = g.ancestorsWithin fuel s := by
  induction fuel generalizing s with
  | zero => simp [ancestorsWithin] at h
  | succ fuel ih =>
    rw [ancestorsWithin] at h ⊢
    rw [ancestorsWithin]
    cases hp : g.parent? s with
    | none => rfl
    | some p =>
      simp only [hp, List.length_cons, Nat.add_le_add_iff_right] at h ⊢
      rw [ih h]

namespace Rooted

variable (hg : g.Rooted)
include hg

/-- No scope is its own ancestor. -/
theorem irrefl (s : ScopeId) : ¬ TransGen g.IsParent s s :=
  hg.ends.transGen.irrefl.irrefl s

theorem lt_of_chain {a s : ScopeId} (h : ReflTransGen g.IsParent a s) (hs : s < g.size) :
    a < g.size := by
  induction h with
  | refl => exact hs
  | tail _ hlink ih => exact ih (hg.parent_lt _ _ hlink)

theorem nodup_ancestorsWithin (fuel : Nat) (s : ScopeId) : (g.ancestorsWithin fuel s).Nodup := by
  induction fuel generalizing s with
  | zero => exact List.nodup_nil
  | succ fuel ih =>
    rw [ancestorsWithin]
    cases hp : g.parent? s with
    | none => simp
    | some p =>
      refine List.nodup_cons.mpr ⟨fun hmem => ?_, ih p⟩
      have hchain : TransGen g.IsParent s s :=
        TransGen.tail' (isParent_of_mem_ancestorsWithin hmem) hp
      exact hg.irrefl s hchain

/-- There are no more ancestors than scopes. -/
theorem length_ancestorsWithin_le (fuel : Nat) {s : ScopeId} (hs : s < g.size) :
    (g.ancestorsWithin fuel s).length ≤ g.size := by
  have hsub : g.ancestorsWithin fuel s ⊆ List.range g.size := by
    intro a ha
    exact List.mem_range.mpr (hg.lt_of_chain (isParent_of_mem_ancestorsWithin ha) hs)
  have hle := (List.subperm_of_subset (hg.nodup_ancestorsWithin fuel s) hsub).length_le
  rwa [List.length_range] at hle

theorem ancestorsWithin_size_succ {s : ScopeId} (hs : s < g.size) :
    g.ancestorsWithin (g.size + 1) s = g.ancestorsWithin g.size s :=
  ancestorsWithin_succ_of_length_le (hg.length_ancestorsWithin_le (g.size + 1) hs)

/-- The ancestors of a scope are itself and the ancestors of its parent. -/
theorem ancestors_eq {s : ScopeId} (hs : s < g.size) :
    g.ancestors s = s :: ((g.parent? s).map g.ancestors).getD [] := by
  rw [ancestors, ← hg.ancestorsWithin_size_succ hs, ancestorsWithin]
  cases g.parent? s <;> rfl

theorem mem_ancestors_iff {a s : ScopeId} (hs : s < g.size) :
    a ∈ g.ancestors s ↔ ReflTransGen g.IsParent a s := by
  constructor
  · exact isParent_of_mem_ancestorsWithin
  · intro h
    induction h with
    | refl => simp [hg.ancestors_eq hs]
    | @tail b c _ hlink ih =>
      have hparent : g.parent? c = some b := hlink
      rw [hg.ancestors_eq hs, hparent]
      exact List.mem_cons_of_mem c (ih (hg.parent_lt c b hlink))

/-- Fuel for all scopes is enough to find every ancestor. -/
theorem grounded (hsize : 0 < g.size) : g.Grounded := by
  intro s
  by_cases hs : s < g.size
  · exact hg.ancestorsWithin_size_succ hs
  · have hnone : g.parent? s = none := by rw [parent?, get_of_le (Nat.le_of_not_lt hs)]
    obtain ⟨n, hn⟩ := Nat.exists_eq_succ_of_ne_zero (Nat.ne_of_gt hsize)
    rw [hn, ancestorsWithin, ancestorsWithin, hnone]

/-- A scope lives if it is held, or one of its descendants is. -/
theorem isLive_iff {handles : List ScopeId} (hlt : ∀ s ∈ handles, s < g.size) (a : ScopeId) :
    g.isLive handles a = true ↔ ∃ s ∈ handles, ReflTransGen g.IsParent a s := by
  cases handles with
  | nil => simp [isLive, live, Marks.has_empty]
  | cons h rest =>
    have hsize : 0 < g.size := Nat.zero_lt_of_lt (hlt h List.mem_cons_self)
    rw [isLive, has_live_iff (hg.grounded hsize)]
    constructor
    · rintro ⟨s, hs, ha⟩
      exact ⟨s, hs, (hg.mem_ancestors_iff (hlt s hs)).mp ha⟩
    · rintro ⟨s, hs, ha⟩
      exact ⟨s, hs, (hg.mem_ancestors_iff (hlt s hs)).mpr ha⟩

end Rooted

end ScriptCore.ScopeGraph

import ScriptCore.Proofs.Hoist.Stamps
import ScriptCore.Proofs.Tree.Targets

/-!
# Resolutions are complete

A resolution goes down the tree, down patterns and up recorded parents, as far as the tree has nodes. On a
tree that hangs together that is all the way: children have smaller ids than their parents, so that nothing
is left to visit, to name or to climb (`Resolver.completes`).
-/
namespace ScriptCore

/-! ## Down the tree -/

namespace Tree

variable {t : Tree}

/-- From a node there are no more levels than its id says. -/
theorem Proper.visit_add {ρ σ : Type} (ht : t.Proper) (w : Walker ρ) (meaning : ρ → Handler σ)
    {levels : Nat} {node : NodeId} (hlevels : node < levels) (more : Nat) (parent : Option NodeId) (s : σ) :
    w.visit meaning t (levels + more) node parent s = w.visit meaning t levels node parent s := by
  induction levels generalizing node parent s with
  | zero => exact absurd hlevels (Nat.not_lt_zero node)
  | succ levels ih =>
    rw [Nat.add_right_comm, Walker.visit, Walker.visit]
    split
    · rfl
    · refine List.foldl_ext _ _ _ fun s child hchild => ?_
      have hlt : child < levels := Nat.lt_of_lt_of_le (ht.child_lt hchild) (Nat.le_of_lt_succ hlevels)
      exact ih hlt (some node) s

/-- Nor are there more levels of patterns. -/
theorem Proper.bindingNamesWithin_add (ht : t.Proper) {fuel : Nat} {p : NodeId} (hfuel : p < fuel)
    (more : Nat) : t.bindingNamesWithin (fuel + more) p = t.bindingNamesWithin fuel p := by
  induction fuel generalizing p with
  | zero => exact absurd hfuel (Nat.not_lt_zero p)
  | succ fuel ih =>
    have hheld {child : NodeId} (h : child ∈ t.held p) :
        t.bindingNamesWithin (fuel + more) child = t.bindingNamesWithin fuel child :=
      ih (Nat.lt_of_lt_of_le (ht.lt_of_held h) (Nat.le_of_lt_succ hfuel))
    rw [Nat.add_right_comm, bindingNamesWithin, bindingNamesWithin]
    simp only
    split
    · rfl
    · refine List.flatMap_congr fun property hproperty => ?_
      have hproperty' := ht.lt_of_held (held_of_present hproperty)
      split
      next child hchild =>
        have hle : child ≤ property := by
          split at hchild
          · exact Nat.le_of_lt (ht.lt_of_held (held_of_child? hchild))
          · cases hchild
            exact Nat.le_refl _
        exact ih (Nat.lt_of_lt_of_le (Nat.lt_of_le_of_lt hle hproperty') (Nat.le_of_lt_succ hfuel))
      · rfl
    · exact List.flatMap_congr fun element helement => hheld (held_of_present helement)
    · split
      next left hleft => exact hheld (held_of_child? hleft)
      · rfl
    · split
      next argument hargument => exact hheld (held_of_child? hargument)
      · rfl
    · rfl

end Tree

/-! ## Up the links -/

/-- Recorded parents are nodes of the tree above their children. -/
def Links.Ascends (t : Tree) (l : Links) : Prop := ∀ n p, l.parent? n = some p → n < p ∧ p < t.size

/-- Climbing takes no more steps than these. -/
def Links.ClimbedWithin (t : Tree) (steps : Nat) (l : Links) : Prop :=
  ∀ n, l.functionNodeWithin t steps n = l.functionNodeWithin t t.size n ∧
    l.blockNodeWithin t steps n = l.blockNode t n

namespace Links.Ascends

variable {t : Tree} {l : Links}

/-- Above a node there are as many steps up as nodes, and a step up takes one of them. -/
theorem climb_parent {fuel : Nat} {n p : NodeId} (h : l.Ascends t) (hp : l.parent? n = some p)
    (hfuel : t.size ≤ fuel + n) : ∃ fewer, fuel = fewer + 1 ∧ t.size ≤ fewer + p := by
  obtain ⟨hlt, hsize⟩ := h n p hp
  simp only [NodeId] at *
  exact ⟨fuel - 1, by omega, by omega⟩

theorem functionNodeWithin_succ (h : l.Ascends t) {fuel : Nat} {n : NodeId} (hfuel : t.size ≤ fuel + n) :
    l.functionNodeWithin t (fuel + 1) n = l.functionNodeWithin t fuel n := by
  induction fuel using Nat.strongRecOn generalizing n with
  | _ fuel ih =>
    cases hp : l.parent? n with
    | none => cases fuel <;> simp [functionNodeWithin, hp]
    | some p =>
      obtain ⟨fewer, rfl, hfewer⟩ := h.climb_parent hp hfuel
      have hrest := ih fewer (Nat.lt_succ_self fewer) hfewer
      rw [functionNodeWithin, functionNodeWithin, hp]
      simp only [hrest]

theorem blockNodeWithin_succ (h : l.Ascends t) {fuel : Nat} {n : NodeId} (hfuel : t.size ≤ fuel + n) :
    l.blockNodeWithin t (fuel + 1) n = l.blockNodeWithin t fuel n := by
  induction fuel using Nat.strongRecOn generalizing n with
  | _ fuel ih =>
    cases hp : l.parent? n with
    | none => cases fuel <;> simp [blockNodeWithin, hp]
    | some p =>
      obtain ⟨fewer, rfl, hfewer⟩ := h.climb_parent hp hfuel
      have hrest := ih fewer (Nat.lt_succ_self fewer) hfewer
      rw [blockNodeWithin, blockNodeWithin, hp]
      simp only [hrest]

/-- Climbing takes no more steps than the tree has nodes. -/
theorem climbedWithin (h : l.Ascends t) {fuel : Nat} (hfuel : t.size ≤ fuel) : l.ClimbedWithin t fuel := by
  intro n
  induction hfuel with
  | refl => exact ⟨rfl, rfl⟩
  | @step fuel hle ih =>
    have hfuel : t.size ≤ fuel + n := Nat.le_trans hle (Nat.le_add_right fuel n)
    exact ⟨(h.functionNodeWithin_succ hfuel).trans ih.1, (h.blockNodeWithin_succ hfuel).trans ih.2⟩

end Links.Ascends

namespace Hoist

variable {t : Tree} {s : State}

theorem ascends_start (start : NodeId) (scope : ScopeId) : (Links.start start scope).Ascends t := by
  intro n p hp
  simp [Links.parent?, Links.start] at hp

/-- A visit records the parent that it comes through. -/
theorem step_ascends (host : HostRules) (h : s.links.Ascends t) {v : Visit}
    (hv : ∀ p, v.parent = some p → v.node < p ∧ p < t.size) : (step host t s v).links.Ascends t := by
  have hlink : (link t v.node v.parent s).2.links.Ascends t := by
    cases hparent : v.parent with
    | none => exact h
    | some parent =>
      intro n p hp
      rw [link_links, Links.parent?_setScope, Links.parent?_setParent] at hp
      split at hp
      next heq =>
        cases hp
        exact heq ▸ hv parent hparent
      · exact h n p hp
  rw [step_eq]
  split
  next rule hrule =>
    have hne : rule ≠ .link := by
      rintro rfl
      exact defaultRules_ne_link hrule
    obtain heq | ⟨target, heq⟩ := Rule.links_eq host (defaultRules_ne_host (Or.inr ⟨_, hrule⟩)) hne v.node
      v.parent
    · rw [heq]
      exact hlink
    · rw [heq]
      exact hlink
  · exact hlink

/-- At any point of a resolution, recorded parents are above their children. -/
theorem foldl_ascends (host : HostRules) (ht : t.Proper) (start : NodeId) {done : List Visit}
    (hdone : done ⊆ t.visits start) (h : s.links.Ascends t) :
    (done.foldl (step host t) s).links.Ascends t := by
  induction done generalizing s with
  | nil => exact h
  | cons v rest ih =>
    obtain ⟨hv, hrest⟩ := List.cons_subset.mp hdone
    refine ih hrest (step_ascends host h fun p hp => ?_)
    obtain heq | ⟨u, -, hopens, heq⟩ := Tree.eq_start_or_child hv
    · rw [heq] at hp
      cases hp
    · rw [heq] at hp
      cases hp
      have hheld := Tree.childNodes_subset_held u.node hopens.2
      exact ⟨ht.lt_of_held hheld, Tree.lt_size_of_held hheld⟩

end Hoist

/-- All that a resolution does down and up a tree is done with as many levels as the tree has nodes. -/
structure Resolver.Completes (r : Resolver) (t : Tree) : Prop where
  walks : ∀ levels, t.size ≤ levels → ∀ start < t.size, ∀ s,
    r.rules.walkFrom (Hoist.Rule.meaning r.host) t levels start s =
      r.rules.walkFrom (Hoist.Rule.meaning r.host) t t.size start s
  names : ∀ levels, t.size ≤ levels → ∀ pattern < t.size,
    t.bindingNamesWithin levels pattern = t.bindingNames pattern
  climbs : ∀ steps, t.size ≤ steps → ∀ start scope g done, done ⊆ t.visits start →
    (done.foldl (Hoist.step r.host t) ⟨.start start scope, g⟩).links.ClimbedWithin t steps

/-- **Resolutions are complete**, at every point of them. -/
theorem Resolver.completes (r : Resolver) {t : Tree} (ht : t.Proper) : r.Completes t where
  walks levels hlevels start hstart s := by
    obtain ⟨more, rfl⟩ := Nat.exists_eq_add_of_le hlevels
    exact ht.visit_add r.rules _ hstart more none s
  names levels hlevels pattern hpattern := by
    obtain ⟨more, rfl⟩ := Nat.exists_eq_add_of_le hlevels
    exact ht.bindingNamesWithin_add hpattern more
  climbs steps hsteps start scope g done hdone :=
    (Hoist.foldl_ascends r.host ht start hdone (Hoist.ascends_start start scope)).climbedWithin hsteps

end ScriptCore

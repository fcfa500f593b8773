import Mathlib.Data.List.Count
import ScriptCore.Proofs.Scope.Forest

/-!
# Counting strong handles

A scope counts its strong handles: the handles held outside, and the parent links of the scopes that are
kept. When the last one of a scope is given up, the scope is freed, and its parent link with it, so that
one release may free a whole chain (`release`).

Counts are balanced when they tell just these handles. A handle that is about to be given up, or about to
become a parent link, counts as one held outside: so a change of parent spends a handle of the new one and
gains one of the old (`Balanced.relink`), and a release takes one handle away (`Balanced.release`). In
balanced counts the scopes with a strong handle are those that are held or above one that is held
(`Balanced.pos_iff`).
-/
namespace ScriptCore.ScopeGraph

open Relation

/-- How many strong handles there are of each scope. -/
abbrev Counts := ScopeId → Nat

/-- One more strong handle of a scope. -/
def Counts.add (n : Counts) (s : ScopeId) : Counts := Function.update n s (n s + 1)

/-- Give up a strong handle of a scope. With the last one the scope is freed, and gives up its handle of
its parent. -/
def release (g : ScopeGraph) : Nat → ScopeId → Counts → Counts
  | 0, _, n => n
  | fuel + 1, s, n =>
    let left := Function.update n s (n s - 1)
    if left s = 0 then
      match g.parent? s with
      | some p => g.release fuel p left
      | none => left
    else left

/-- The number of scopes that are kept and have `s` for their parent. -/
def links (g : ScopeGraph) (n : Counts) (s : ScopeId) : Nat :=
  (List.range g.size).countP fun c => g.parent? c = some s ∧ 0 < n c

/-- The counts tell the handles that are held and the parent links of the scopes that are kept. -/
def Balanced (g : ScopeGraph) (held : List ScopeId) (n : Counts) : Prop :=
  ∀ s, n s = held.count s + g.links n s

variable {g g' : ScopeGraph} {held held' : List ScopeId} {n n' : Counts} {c p s x : ScopeId}

/-- A handle more of a scope that is kept leaves the same scopes kept. -/
theorem Counts.add_pos_iff (hs : 0 < n s) : 0 < n.add s c ↔ 0 < n c := by
  rw [Counts.add, Function.update_apply]
  split
  next heq => simp [heq, hs]
  · rfl

/-! ## Links -/

/-- Of two counts over a range for conditions that differ at one number, each is the other one, corrected
at that number. -/
theorem countP_range_add {size c : Nat} (hc : c < size) {P Q : Nat → Bool} (h : ∀ x ≠ c, P x = Q x) :
    (List.range size).countP P + (if Q c then 1 else 0) =
      (List.range size).countP Q + if P c then 1 else 0 := by
  have hperm := List.perm_cons_erase (List.mem_range.mpr hc)
  have hrest : ((List.range size).erase c).countP P = ((List.range size).erase c).countP Q :=
    List.countP_congr fun x hx => by
      rw [h x ((List.nodup_range.mem_erase_iff.mp hx).1)]
  rw [hperm.countP_eq P, hperm.countP_eq Q, List.countP_cons, List.countP_cons, hrest,
    Nat.add_right_comm]

theorem links_congr (hsize : g'.size = g.size) (hparent : g'.parent? = g.parent?)
    (hkept : ∀ c, 0 < n' c ↔ 0 < n c) (s : ScopeId) : g'.links n' s = g.links n s := by
  rw [links, links, hsize, hparent]
  exact List.countP_congr fun c _ => by simp [hkept]

theorem links_pos_iff : 0 < g.links n s ↔ ∃ c, g.IsParent s c ∧ 0 < n c := by
  rw [links, List.countP_pos_iff]
  constructor
  · rintro ⟨c, -, hc⟩
    exact ⟨c, of_decide_eq_true hc⟩
  · rintro ⟨c, hlink, hkept⟩
    exact ⟨c, List.mem_range.mpr hlink.lt, decide_eq_true ⟨hlink, hkept⟩⟩

/-- A scope that is freed takes its own parent link with it. -/
theorem links_freed (hkept : 0 < n x) (hfreed : n' x = 0) (hother : ∀ c ≠ x, n' c = n c)
    (s : ScopeId) : g.links n s = g.links n' s + if g.parent? x = some s then 1 else 0 := by
  by_cases hx : x < g.size
  · have hcount := countP_range_add hx (P := fun c => g.parent? c = some s ∧ 0 < n c)
      (Q := fun c => g.parent? c = some s ∧ 0 < n' c) fun c hc => by rw [hother c hc]
    simpa [links, hkept, hfreed] using hcount
  · have hroot : g.parent? x = none := by rw [parent?, get_of_le (Nat.le_of_not_lt hx)]
    rw [hroot, if_neg (Option.some_ne_none s).symm, Nat.add_zero]
    refine List.countP_congr fun c hc => ?_
    have hne : c ≠ x := fun heq => hx (heq ▸ List.mem_range.mp hc)
    rw [hother c hne]

/-- Where one scope that is kept has another parent, one link goes and another comes. -/
theorem links_relinked (hc : c < g.size) (hkept : 0 < n c) {parent : Option ScopeId}
    (hsize : g'.size = g.size) (hparent : g'.parent? = Function.update g.parent? c parent)
    (s : ScopeId) :
    g'.links n s + (if g.parent? c = some s then 1 else 0) =
      g.links n s + if parent = some s then 1 else 0 := by
  have hcount := countP_range_add hc (P := fun x => g'.parent? x = some s ∧ 0 < n x)
    (Q := fun x => g.parent? x = some s ∧ 0 < n x) fun x hx => by
      rw [hparent, Function.update_of_ne hx]
  have hself : g'.parent? c = parent := by rw [hparent, Function.update_self]
  rw [links, hsize, links]
  simpa [hself, hkept] using hcount

/-- A scope that is made comes with its own parent link. -/
theorem links_made {parent : Option ScopeId} (hsize : g'.size = g.size + 1)
    (hparent : g'.parent? = Function.update g.parent? g.size parent) (s : ScopeId) :
    g'.links (Function.update n g.size 1) s = g.links n s + if parent = some s then 1 else 0 := by
  have hold : (List.range g.size).countP (fun c => decide (g'.parent? c = some s ∧
      0 < Function.update n g.size 1 c)) = g.links n s := by
    refine List.countP_congr fun c hc => ?_
    have hne : c ≠ g.size := Nat.ne_of_lt (List.mem_range.mp hc)
    rw [hparent, Function.update_of_ne hne, Function.update_of_ne hne]
  rw [links, hsize, List.range_succ, List.countP_append, hold, List.countP_singleton]
  simp [hparent]

/-! ## Handles that come and go -/

/-- A handle that some scope may have of its parent, among the others. -/
theorem count_toList_append (parent : Option ScopeId) (held : List ScopeId) (s : ScopeId) :
    (parent.toList ++ held).count s = held.count s + if parent = some s then 1 else 0 := by
  cases parent with
  | none => rfl
  | some p => simp [List.count_cons]

namespace Balanced

theorem perm (h : Balanced g held n) (hheld : held'.Perm held) : Balanced g held' n := fun s => by
  rw [h s, hheld.count_eq]

/-- What the counts are about is the number of scopes and their parent links. -/
theorem congr (h : Balanced g held n) (hsize : g'.size = g.size) (hparent : g'.parent? = g.parent?) :
    Balanced g' held n := fun s => by
  rw [h s, links_congr hsize hparent fun _ => Iff.rfl]

/-- A further handle of a scope that is kept. -/
theorem add (h : Balanced g held n) (hs : 0 < n s) : Balanced g (s :: held) (n.add s) := by
  have hkept : ∀ c, 0 < n.add s c ↔ 0 < n c := fun _ => Counts.add_pos_iff hs
  intro t
  rw [links_congr rfl rfl hkept, Counts.add, Function.update_apply]
  by_cases ht : t = s
  · rw [if_pos ht, ht, List.count_cons_self, h s]
    omega
  · rw [if_neg ht, List.count_cons_of_ne (Ne.symm ht), h t]

/-- A link that is cut leaves its handle of the old parent, and one that is made takes a handle of the
new one. -/
theorem relink {q : Option ScopeId} (h : Balanced g (q.toList ++ held) n) (hc : c < g.size)
    (hkept : 0 < n c) (hsize : g'.size = g.size)
    (hparent : g'.parent? = Function.update g.parent? c q) :
    Balanced g' ((g.parent? c).toList ++ held) n := by
  intro s
  have hlinks := links_relinked hc hkept hsize hparent s
  rw [h s, count_toList_append, count_toList_append]
  omega

/-- A scope that is made is held by its maker; its link takes a handle of the parent. -/
theorem make {q : Option ScopeId} (h : Balanced g (q.toList ++ held) n)
    (hnew : n g.size = 0) (hsize : g'.size = g.size + 1)
    (hparent : g'.parent? = Function.update g.parent? g.size q) :
    Balanced g' (g.size :: held) (Function.update n g.size 1) := by
  intro s
  have hs := h s
  rw [count_toList_append] at hs
  rw [links_made hsize hparent, Function.update_apply]
  by_cases heq : s = g.size
  · rw [if_pos heq, heq, List.count_cons_self]
    rw [heq, hnew] at hs
    omega
  · rw [if_neg heq, List.count_cons_of_ne (Ne.symm heq), hs]
    omega

/-- A release takes one handle away, and adds none. -/
theorem release {fuel : Nat} (h : Balanced g (x :: held) n)
    (hfuel : g.ancestorsWithin (fuel + 1) x = g.ancestorsWithin fuel x) :
    Balanced g held (g.release fuel x n) ∧ ∀ s, g.release fuel x n s ≤ n s := by
  induction fuel generalizing x n with
  | zero => simp [ancestorsWithin] at hfuel
  | succ fuel ih =>
    have hx : 0 < n x := by
      rw [h x, List.count_cons_self]
      omega
    have hle : ∀ s, Function.update n x (n x - 1) s ≤ n s := by
      intro s
      rw [Function.update_apply]
      split
      next hs => rw [hs]; exact Nat.sub_le _ _
      · exact Nat.le_refl _
    have hself : Function.update n x (n x - 1) x = n x - 1 := Function.update_self ..
    have hother : ∀ s ≠ x, Function.update n x (n x - 1) s = n s := fun s hs =>
      Function.update_of_ne hs ..
    have hcount : ∀ s, Function.update n x (n x - 1) s = held.count s + g.links n s := by
      intro s
      by_cases hs : s = x
      · rw [hs, hself, h x, List.count_cons_self]
        omega
      · rw [hother s hs, h s, List.count_cons_of_ne (Ne.symm hs)]
    rw [ScopeGraph.release]
    by_cases hlast : Function.update n x (n x - 1) x = 0
    · -- the scope is freed: what it held is given up in turn
      have hfreed : Balanced g ((g.parent? x).toList ++ held) (Function.update n x (n x - 1)) := by
        intro s
        rw [hcount s, links_freed hx hlast hother s, count_toList_append]
        omega
      rw [if_pos hlast]
      cases hp : g.parent? x with
      | none =>
        rw [hp] at hfreed
        exact ⟨hfreed, hle⟩
      | some p =>
        rw [hp] at hfreed
        have hrest : g.ancestorsWithin (fuel + 1) p = g.ancestorsWithin fuel p := by
          rw [ancestorsWithin, ancestorsWithin, hp] at hfuel
          exact (List.cons.inj hfuel).2
        obtain ⟨hbalanced, hless⟩ := ih hfreed hrest
        exact ⟨hbalanced, fun s => Nat.le_trans (hless s) (hle s)⟩
    · rw [if_neg hlast]
      refine ⟨fun s => ?_, hle⟩
      have hkept : ∀ c, 0 < Function.update n x (n x - 1) c ↔ 0 < n c := by
        intro c
        by_cases hc : c = x
        · rw [hc]
          exact ⟨fun _ => hx, fun _ => Nat.pos_of_ne_zero hlast⟩
        · rw [hother c hc]
      rw [hcount s, links_congr rfl rfl hkept]

/-! ## The scopes that are kept -/

/-- A scope with a strong handle is held, or is the parent of such a scope. -/
theorem pos_iff_or (h : Balanced g held n) :
    0 < n s ↔ s ∈ held ∨ ∃ c, g.IsParent s c ∧ 0 < n c := by
  rw [h s, Nat.add_pos_iff_pos_or_pos, List.count_pos_iff, links_pos_iff]

variable (h : Balanced g held n)
include h

theorem pos_of_mem (hs : s ∈ held) : 0 < n s := h.pos_iff_or.mpr (Or.inl hs)

/-- What is above a scope with a strong handle has one. -/
theorem pos_of_chain (hs : 0 < n s) (hchain : ReflTransGen g.IsParent x s) : 0 < n x := by
  induction hchain using ReflTransGen.head_induction_on with
  | refl => exact hs
  | @head a b hlink _ ih => exact h.pos_iff_or.mpr (Or.inr ⟨b, hlink, ih⟩)

/-- **The scopes with a strong handle are those that are held, and those above them.** -/
theorem pos_iff (hg : g.Rooted) (hheld : ∀ t ∈ held, t < g.size) :
    0 < n s ↔ ∃ t ∈ held, ReflTransGen g.IsParent s t := by
  constructor
  · intro hs
    have hlt : s < g.size := by
      rcases h.pos_iff_or.mp hs with hmem | ⟨c, hlink, -⟩
      · exact hheld s hmem
      · exact hg.parent_lt c s hlink
    -- downwards, from a parent to a child that it is kept by: chains of ancestors only grow so long
    induction hroom : g.size - (g.ancestors s).length using Nat.strongRecOn generalizing s with
    | _ room ih =>
      rcases h.pos_iff_or.mp hs with hmem | ⟨c, hlink, hkept⟩
      · exact ⟨s, hmem, .refl⟩
      · have hlonger : (g.ancestors c).length = (g.ancestors s).length + 1 := by
          rw [hg.ancestors_eq hlink.lt, show g.parent? c = some s from hlink]
          rfl
        have hbound := hg.length_ancestorsWithin_le g.size hlink.lt
        rw [← ancestors, hlonger] at hbound
        obtain ⟨t, ht, hchain⟩ := ih (g.size - (g.ancestors c).length) (by omega) hkept hlink.lt rfl
        exact ⟨t, ht, hchain.head hlink⟩
  · rintro ⟨t, ht, hchain⟩
    exact h.pos_of_chain (h.pos_of_mem ht) hchain

/-- Scopes that were never made have no handles. -/
theorem eq_zero_of_le (hg : g.Rooted) (hheld : ∀ t ∈ held, t < g.size) (hs : g.size ≤ s) : n s = 0 := by
  by_contra hne
  obtain ⟨t, ht, hchain⟩ := (h.pos_iff hg hheld).mp (Nat.pos_of_ne_zero hne)
  exact Nat.not_lt_of_le hs (hg.lt_of_chain hchain (hheld t ht))

end Balanced

end ScriptCore.ScopeGraph

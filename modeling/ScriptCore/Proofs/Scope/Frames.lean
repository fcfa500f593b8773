import Mathlib.Logic.Relation
import ScriptCore.Scope.Cells

/-!
# Frames

While a program runs beneath a root scope, scopes stay attached where they were made, so that parents are
older than their children, and marks stay with the scopes they were given to. Some names are kept: a cell
of such a name is found in a marked scope only, and holds what it was made with. A chain of unmarked
scopes that leads to a marked one therefore finds that scope's kept cells, and does so ever after.
-/
namespace ScriptCore.ScopeGraph

open Relation

/-- What a later graph still has of the scopes of a graph. -/
structure Later (kept : String → Prop) (g g' : ScopeGraph) : Prop where
  size_le : g.size ≤ g'.size
  parent_eq : ∀ s < g.size, g'.parent? s = g.parent? s
  dynamic_eq : ∀ s < g.size, (g'.get s).dynamic = (g.get s).dynamic
  cell_eq : ∀ s < g.size, ∀ name, kept name → g'.getOwn? s name = g.getOwn? s name

/-- Beneath a root, parents are older than their children, and only marked scopes own kept names. -/
structure Framed (kept : String → Prop) (root : ScopeId) (g : ScopeGraph) : Prop where
  root_lt : root < g.size
  root_parent : g.parent? root = none
  root_plain : (g.get root).dynamic = false
  parent : ∀ s, root < s → s < g.size → ∃ p, g.parent? s = some p ∧ root ≤ p ∧ p < s
  bare : ∀ s, root ≤ s → s < g.size → (g.get s).dynamic = false →
    ∀ name, kept name → g.getOwn? s name = none

/-- A graph that another one came to be. -/
structure Grows (kept : String → Prop) (root : ScopeId) (g g' : ScopeGraph) : Prop where
  framed : g'.Framed kept root
  later : g.Later kept g'

/-- A chain of parents that passes no marked scope before its end. -/
def Leads (g : ScopeGraph) : ScopeId → ScopeId → Prop :=
  ReflTransGen fun a b => g.parent? a = some b ∧ (g.get a).dynamic = false

/-- A scope beneath a root with such a chain to another scope. -/
structure Reaches (root x : ScopeId) (g : ScopeGraph) (s : ScopeId) : Prop where
  root_le : root ≤ s
  lt : s < g.size
  leads : g.Leads s x

variable {kept : String → Prop} {root x s : ScopeId} {g g' g'' : ScopeGraph}

theorem Later.refl (g : ScopeGraph) : g.Later kept g :=
  ⟨Nat.le_refl _, fun _ _ => rfl, fun _ _ => rfl, fun _ _ _ _ => rfl⟩

theorem Later.trans (h : g.Later kept g') (h' : g'.Later kept g'') : g.Later kept g'' where
  size_le := Nat.le_trans h.size_le h'.size_le
  parent_eq s hs := (h'.parent_eq s (Nat.lt_of_lt_of_le hs h.size_le)).trans (h.parent_eq s hs)
  dynamic_eq s hs := (h'.dynamic_eq s (Nat.lt_of_lt_of_le hs h.size_le)).trans (h.dynamic_eq s hs)
  cell_eq s hs name hname :=
    (h'.cell_eq s (Nat.lt_of_lt_of_le hs h.size_le) name hname).trans (h.cell_eq s hs name hname)

theorem Framed.refl (hg : g.Framed kept root) : g.Grows kept root g := ⟨hg, .refl g⟩

theorem Grows.trans (h : g.Grows kept root g') (h' : g'.Grows kept root g'') :
    g.Grows kept root g'' := ⟨h'.framed, h.later.trans h'.later⟩

/-! ## Chains -/

/-- A parent is older than its child, and not beyond the root. -/
theorem Framed.parent_bounds (hg : g.Framed kept root) (hle : root ≤ s) (hs : s < g.size) {p : ScopeId}
    (hp : g.parent? s = some p) : root ≤ p ∧ p < s := by
  cases Nat.lt_or_eq_of_le hle with
  | inl hlt =>
    obtain ⟨q, hq, hbounds⟩ := hg.parent s hlt hs
    cases hq.symm.trans hp
    exact hbounds
  | inr heq =>
    have hnone := hg.root_parent
    rw [heq, hp] at hnone
    cases hnone

/-- So is what a chain leads to. -/
theorem Leads.bounds (h : g.Leads s x) (hg : g.Framed kept root) (hle : root ≤ s) (hs : s < g.size) :
    root ≤ x ∧ x ≤ s := by
  induction h with
  | refl => exact ⟨hle, Nat.le_refl _⟩
  | @tail a b _ hlink ih =>
    obtain ⟨hroot, hle⟩ := ih
    obtain ⟨hroot', hlt⟩ := hg.parent_bounds hroot (Nat.lt_of_le_of_lt hle hs) hlink.1
    exact ⟨hroot', Nat.le_trans (Nat.le_of_lt hlt) hle⟩

/-- Chains stay. -/
theorem Leads.later (h : g.Leads s x) (hg : g.Framed kept root) (hle : root ≤ s) (hs : s < g.size)
    (hlater : g.Later kept g') : g'.Leads s x := by
  induction h with
  | refl => exact .refl
  | @tail a b hchain hlink ih =>
    have ha : a < g.size := Nat.lt_of_le_of_lt (Leads.bounds hchain hg hle hs).2 hs
    refine .tail ih ⟨?_, ?_⟩
    · rw [hlater.parent_eq a ha]
      exact hlink.1
    · rw [hlater.dynamic_eq a ha]
      exact hlink.2

namespace Reaches

theorem self (hle : root ≤ x) (hlt : x < g.size) : g.Reaches root x x := ⟨hle, hlt, .refl⟩

theorem later (h : g.Reaches root x s) (hg : g.Framed kept root) (hlater : g.Later kept g') :
    g'.Reaches root x s :=
  ⟨h.root_le, Nat.lt_of_lt_of_le h.lt hlater.size_le, h.leads.later hg h.root_le h.lt hlater⟩

theorem trans {y : ScopeId} (h : g.Reaches root y s) (h' : g.Reaches root x y) : g.Reaches root x s :=
  ⟨h.root_le, h.lt, ReflTransGen.trans h.leads h'.leads⟩

/-- The end of a chain is a scope beneath the root as well. -/
theorem target (h : g.Reaches root x s) (hg : g.Framed kept root) : root ≤ x ∧ x ≤ s ∧ x < g.size :=
  have hbounds := h.leads.bounds hg h.root_le h.lt
  ⟨hbounds.1, hbounds.2, Nat.lt_of_le_of_lt hbounds.2 h.lt⟩

/-- Through an unmarked scope a chain goes on as its parent's does. -/
theorem head {p : ScopeId} (h : g.Reaches root x p) (hle : root ≤ s) (hs : s < g.size)
    (hparent : g.parent? s = some p) (hplain : (g.get s).dynamic = false) : g.Reaches root x s :=
  ⟨hle, hs, .head ⟨hparent, hplain⟩ h.leads⟩

/-- What holds at the end of a chain and is handed on from parents to unmarked children. -/
theorem induct {P : ScopeId → Prop} (h : g.Reaches root x s) (hg : g.Framed kept root) (hend : P x)
    (hstep : ∀ a p, a < g.size → g.parent? a = some p → (g.get a).dynamic = false → root ≤ p → p < a →
      P p → P a) : P s := by
  induction s using Nat.strongRecOn with
  | _ s ih =>
    obtain rfl | ⟨p, ⟨hp, hplain⟩, hleads⟩ := ReflTransGen.cases_head h.leads
    · exact hend
    · obtain ⟨hroot, hlt⟩ := hg.parent_bounds h.root_le h.lt hp
      exact hstep s p h.lt hp hplain hroot hlt (ih p hlt ⟨hroot, Nat.lt_trans hlt h.lt, hleads⟩)

end Reaches

/-- A chain that starts in an earlier scope was there before. -/
theorem Reaches.earlier (h : g'.Reaches root x s) (hg' : g'.Framed kept root) (hlater : g.Later kept g')
    (hs : s < g.size) : g.Reaches root x s := by
  refine h.induct hg' (P := fun s => s < g.size → g.Reaches root x s)
    (fun hx => .self (h.target hg').1 hx) (fun a p _ hp hplain hroot hpa ih ha => ?_) hs
  have hparent : g.parent? a = some p := (hlater.parent_eq a ha).symm.trans hp
  have hunmarked : (g.get a).dynamic = false := (hlater.dynamic_eq a ha).symm.trans hplain
  exact (ih (Nat.lt_trans hpa ha)).head (Nat.le_trans hroot (Nat.le_of_lt hpa)) ha hparent hunmarked

/-! ## Changes -/

/-- Changes of a scope that touch neither its place nor its mark nor its kept cells. -/
theorem Framed.modify (hg : g.Framed kept root) (s : ScopeId) {f : Scope → Scope}
    (hparent : ∀ scope, (f scope).parent = scope.parent)
    (hdynamic : ∀ scope, (f scope).dynamic = scope.dynamic)
    (hcells : ∀ scope name, kept name → (f scope).cells.get? name = scope.cells.get? name) :
    g.Grows kept root (g.modify s f) := by
  have hparent' (t : ScopeId) : (g.modify s f).parent? t = g.parent? t := by
    rw [parent?, get_modify]
    split
    · exact hparent _
    · rfl
  have hdynamic' (t : ScopeId) : ((g.modify s f).get t).dynamic = (g.get t).dynamic := by
    rw [get_modify]
    split
    · exact hdynamic _
    · rfl
  have hcells' (t : ScopeId) (name : String) (hname : kept name) :
      (g.modify s f).getOwn? t name = g.getOwn? t name := by
    rw [getOwn?, get_modify]
    split
    · exact hcells _ name hname
    · rfl
  refine ⟨⟨?_, ?_, ?_, fun t hle hlt => ?_, fun t hle hlt hplain name hname => ?_⟩, ?_,
    fun t _ => hparent' t, fun t _ => hdynamic' t, fun t _ => hcells' t⟩
  · rw [size_modify]
    exact hg.root_lt
  · rw [hparent']
    exact hg.root_parent
  · rw [hdynamic']
    exact hg.root_plain
  · rw [size_modify] at hlt
    rw [hparent']
    exact hg.parent t hle hlt
  · rw [size_modify] at hlt
    rw [hdynamic'] at hplain
    rw [hcells' t name hname]
    exact hg.bare t hle hlt hplain name hname
  · exact Nat.le_of_eq (size_modify g s f).symm

theorem Framed.setOwner (hg : g.Framed kept root) (s : ScopeId) (owner : Option NodeId) :
    g.Grows kept root (g.setOwner s owner) :=
  hg.modify s (fun _ => rfl) (fun _ => rfl) fun _ _ _ => rfl

theorem Framed.declare (hg : g.Framed kept root) (s : ScopeId) {name : String} (value : Value)
    (hname : ¬ kept name) : g.Grows kept root (g.declare s name value) := by
  refine hg.modify s (fun _ => rfl) (fun _ => rfl) fun scope other hother => ?_
  have hne : name ≠ other := fun heq => hname (heq ▸ hother)
  simp [Dict.get?_insert, hne]

theorem Framed.set (hg : g.Framed kept root) (s : ScopeId) {name : String} (value : Value)
    (hname : ¬ kept name) : g.Grows kept root (g.set s name value) := by
  rw [ScopeGraph.set]
  split
  · exact hg.declare _ value hname
  · exact hg.declare s value hname

/-- A new scope beneath another one. -/
theorem Framed.addChild (hg : g.Framed kept root) {p : ScopeId} (hle : root ≤ p) (hp : p < g.size) :
    g.Grows kept root (g.addChild p).2 := by
  have hold (t : ScopeId) (ht : t < g.size) :
      (g.add { parent := some p }).2.get t = g.get t := by rw [get_add, if_neg (Nat.ne_of_lt ht)]
  have hadd : g.Grows kept root (g.add { parent := some p }).2 := by
    refine ⟨⟨?_, ?_, ?_, fun t hroot ht => ?_, fun t hroot ht hplain name hname => ?_⟩, ?_, ?_, ?_, ?_⟩
    · rw [size_add]
      exact Nat.lt_succ_of_lt hg.root_lt
    · rw [parent?, hold root hg.root_lt]
      exact hg.root_parent
    · rw [hold root hg.root_lt]
      exact hg.root_plain
    · rw [size_add] at ht
      cases Nat.lt_or_eq_of_le (Nat.le_of_lt_succ ht) with
      | inl ht =>
        rw [parent?, hold t ht]
        exact hg.parent t hroot ht
      | inr ht =>
        refine ⟨p, ?_, hle, ht ▸ hp⟩
        rw [parent?, get_add, if_pos ht]
    · rw [size_add] at ht
      cases Nat.lt_or_eq_of_le (Nat.le_of_lt_succ ht) with
      | inl ht =>
        rw [getOwn?, hold t ht]
        rw [hold t ht] at hplain
        exact hg.bare t hroot ht hplain name hname
      | inr ht =>
        rw [getOwn?, get_add, if_pos ht]
        rfl
    · rw [size_add]
      exact Nat.le_succ _
    · exact fun t ht => congrArg Scope.parent (hold t ht)
    · exact fun t ht => congrArg Scope.dynamic (hold t ht)
    · exact fun t ht name _ => congrArg (fun scope => scope.cells.get? name) (hold t ht)
  exact hadd.trans (hadd.framed.modify p (fun _ => rfl) (fun _ => rfl) fun _ _ _ => rfl)

/-- It is empty and unmarked, with the other one as its parent. -/
theorem get_addChild_size {p : ScopeId} (hp : p < g.size) : ((g.addChild p).2.get g.size).parent = some p ∧
    ((g.addChild p).2.get g.size).dynamic = false ∧ ((g.addChild p).2.get g.size).cells = ∅ := by
  have hne : ¬ (p = g.size ∧ g.size < (g.add { parent := some p }).2.size) :=
    fun h => Nat.ne_of_lt hp h.1
  have hget : (g.addChild p).2.get g.size = { parent := some p } := by
    rw [ScopeGraph.addChild, get_modify, if_neg hne, get_add, if_pos rfl]
  rw [hget]
  exact ⟨rfl, rfl, rfl⟩

theorem Framed.reaches_child (hg : g.Framed kept root) {p : ScopeId} (h : g.Reaches root x p) :
    (g.addChild p).2.Reaches root x g.size := by
  obtain ⟨hparent, hplain, -⟩ := @get_addChild_size g p h.lt
  refine (h.later hg (hg.addChild h.root_le h.lt).later).head (Nat.le_of_lt hg.root_lt) ?_ hparent hplain
  rw [size_addChild]
  exact Nat.lt_succ_self _

/-- A chain does not depend on the scope it leads to. -/
theorem Leads.own (h : g.Leads s x) (hother : ∀ t ≠ x, g'.get t = g.get t) : g'.Leads s x := by
  induction h using ReflTransGen.head_induction_on with
  | refl => exact .refl
  | @head a b hlink _ ih =>
    by_cases ha : a = x
    · rw [ha]
      exact .refl
    · refine .head ⟨?_, ?_⟩ ih
      · rw [parent?, hother a ha]
        exact hlink.1
      · rw [hother a ha]
        exact hlink.2

/-- Marking a scope that is new since a graph. Whatever it owns, the graph does not lose. -/
theorem Grows.own (h : g.Grows kept root g') (hs : g.size ≤ s) {g'' : ScopeGraph}
    (hsize : g''.size = g'.size) (hother : ∀ t ≠ s, g''.get t = g'.get t)
    (hparent : g''.parent? s = g'.parent? s) (hmarked : (g''.get s).dynamic = true)
    (hroot : root < g.size) : g.Grows kept root g'' := by
  have hne {t : ScopeId} (ht : t < g.size) : t ≠ s := Nat.ne_of_lt (Nat.lt_of_lt_of_le ht hs)
  have hparent' (t : ScopeId) : g''.parent? t = g'.parent? t := by
    by_cases ht : t = s
    · rw [ht]
      exact hparent
    · exact congrArg Scope.parent (hother t ht)
  have hlater : g'.size = g''.size := hsize.symm
  refine ⟨⟨hlater ▸ h.framed.root_lt, (hparent' root).trans h.framed.root_parent, ?_,
    fun t hle ht => ?_, fun t hle ht hplain name hname => ?_⟩, ?_, ?_, ?_, ?_⟩
  · rw [hother root (hne hroot)]
    exact h.framed.root_plain
  · rw [hparent']
    exact h.framed.parent t hle (hlater ▸ ht)
  · have ht' : t ≠ s := by
      rintro rfl
      rw [hmarked] at hplain
      cases hplain
    rw [getOwn?, hother t ht']
    rw [hother t ht'] at hplain
    exact h.framed.bare t hle (hlater ▸ ht) hplain name hname
  · exact hlater ▸ h.later.size_le
  · exact fun t ht => (hparent' t).trans (h.later.parent_eq t ht)
  · intro t ht
    rw [hother t (hne ht)]
    exact h.later.dynamic_eq t ht
  · intro t ht name hname
    rw [getOwn?, hother t (hne ht)]
    exact h.later.cell_eq t ht name hname

/-! ## Lookups along a chain -/

/-- Beneath the root, what is found by following parents takes no more links than the age of a scope. -/
theorem Framed.follow_eq {α : Type} {F : Nat → ScopeId → α} {G : ScopeId → Option α → α}
    (hg : g.Framed kept root) (hF : ∀ fuel s, F (fuel + 1) s = G s ((g.parent? s).map (F fuel)))
    {fuel : Nat} (hle : root ≤ s) (hs : s < g.size) (hfuel : s < fuel) : F fuel s = F g.size s := by
  have hmore (fuel more : Nat) (s : ScopeId) (hle : root ≤ s) (hs : s < g.size) (hfuel : s < fuel) :
      F (fuel + more) s = F fuel s := by
    induction fuel generalizing s with
    | zero => exact absurd hfuel (Nat.not_lt_zero s)
    | succ fuel ih =>
      rw [Nat.succ_add, hF, hF]
      cases hp : g.parent? s with
      | none => rfl
      | some p =>
        obtain ⟨hroot, hps⟩ := hg.parent_bounds hle hs hp
        have hrest := ih p hroot (Nat.lt_trans hps hs) (Nat.lt_of_lt_of_le hps (Nat.le_of_lt_succ hfuel))
        rw [Option.map_some, Option.map_some, hrest]
  have hself := hmore (s + 1) (g.size - (s + 1)) s hle hs (Nat.lt_succ_self s)
  have hfuel' := hmore (s + 1) (fuel - (s + 1)) s hle hs (Nat.lt_succ_self s)
  rw [Nat.add_sub_cancel' hs] at hself
  rw [Nat.add_sub_cancel' hfuel] at hfuel'
  rw [hself, hfuel']

theorem Framed.ancestorsWithin_eq (hg : g.Framed kept root) {fuel : Nat} (hle : root ≤ s)
    (hs : s < g.size) (hfuel : s < fuel) : g.ancestorsWithin fuel s = g.ancestors s := by
  refine hg.follow_eq (G := fun s rest => s :: rest.getD []) (fun fuel s => ?_) hle hs hfuel
  rw [ancestorsWithin]
  cases g.parent? s <;> rfl

theorem Framed.resolveWithin_eq (hg : g.Framed kept root) (name : String) {fuel : Nat} (hle : root ≤ s)
    (hs : s < g.size) (hfuel : s < fuel) : g.resolveWithin name fuel s = g.resolve? s name := by
  refine hg.follow_eq (G := fun s rest => ((g.get s).cells.get? name).elim (rest.getD none) fun value =>
    some (s, value)) (fun fuel s => ?_) hle hs hfuel
  rw [resolveWithin, parent?]
  cases (g.get s).cells.get? name with
  | some value => rfl
  | none => cases (g.get s).parent <;> rfl

/-- At the root there is no marked scope to be found, and no kept cell. -/
theorem Framed.find?_root (hg : g.Framed kept root) {fuel : Nat} :
    (g.ancestorsWithin fuel root).find? (fun a => (g.get a).dynamic) = none := by
  cases fuel with
  | zero => rfl
  | succ fuel => simp [ancestorsWithin, hg.root_plain, hg.root_parent]

theorem Framed.resolveWithin_root (hg : g.Framed kept root) {fuel : Nat} {name : String}
    (hname : kept name) : g.resolveWithin name fuel root = none := by
  cases fuel with
  | zero => rfl
  | succ fuel =>
    have hbare : (g.get root).cells.get? name = none :=
      hg.bare root (Nat.le_refl _) hg.root_lt hg.root_plain name hname
    have hparent : (g.get root).parent = none := hg.root_parent
    simp [resolveWithin, hbare, hparent]

/-- The nearest marked scope from a scope is the one from the end of a chain. -/
theorem Framed.nearestDynamic?_eq (hg : g.Framed kept root) (h : g.Reaches root x s) :
    g.nearestDynamic? s = g.nearestDynamic? x := by
  obtain ⟨hroot, hxs, hx⟩ := h.target hg
  have hfind : ∀ fuel, s < fuel → (g.ancestorsWithin fuel s).find? (fun a => (g.get a).dynamic) =
      (g.ancestors x).find? fun a => (g.get a).dynamic := by
    refine h.induct hg (P := fun s => ∀ fuel, s < fuel → (g.ancestorsWithin fuel s).find? _ = _)
      (fun fuel hfuel => ?_) fun a p ha hp hplain _ hpa ih fuel hfuel => ?_
    · rw [hg.ancestorsWithin_eq hroot hx hfuel]
    · cases fuel with
      | zero => exact absurd hfuel (Nat.not_lt_zero a)
      | succ fuel =>
        rw [ancestorsWithin, List.find?_cons, hplain]
        simp only [hp]
        exact ih fuel (Nat.lt_of_lt_of_le hpa (Nat.le_of_lt_succ hfuel))
  exact hfind g.size h.lt

/-- A kept name means the same from a scope as from the end of a chain. -/
theorem Framed.resolve?_eq (hg : g.Framed kept root) (h : g.Reaches root x s) {name : String}
    (hname : kept name) : ∃ fuel, x < fuel ∧ g.resolve? s name = g.resolveWithin name fuel x := by
  have hresolve : ∀ fuel, s < fuel → ∃ fuel', x < fuel' ∧
      g.resolveWithin name fuel s = g.resolveWithin name fuel' x := by
    refine h.induct hg (P := fun s => ∀ fuel, s < fuel → ∃ fuel', x < fuel' ∧
        g.resolveWithin name fuel s = g.resolveWithin name fuel' x)
      (fun fuel hfuel => ⟨fuel, hfuel, rfl⟩) fun a p ha hp hplain hroot hpa ih fuel hfuel => ?_
    cases fuel with
    | zero => exact absurd hfuel (Nat.not_lt_zero a)
    | succ fuel =>
      have hbare : (g.get a).cells.get? name = none :=
        hg.bare a (Nat.le_trans hroot (Nat.le_of_lt hpa)) ha hplain name hname
      have hparent : (g.get a).parent = some p := hp
      obtain ⟨fuel', hfuel', heq⟩ := ih fuel (Nat.lt_of_lt_of_le hpa (Nat.le_of_lt_succ hfuel))
      refine ⟨fuel', hfuel', ?_⟩
      rw [resolveWithin]
      simp only [hbare, hparent]
      exact heq
  exact hresolve g.size h.lt

/-- From a chain to a marked scope, that scope is the nearest, and its kept cells are what is read. -/
theorem Framed.reads_marked (hg : g.Framed kept root) (h : g.Reaches root x s)
    (hmarked : (g.get x).dynamic = true) : g.nearestDynamic? s = some x ∧
      ∀ name value, kept name → g.getOwn? x name = some value → g.get? s name = some value := by
  obtain ⟨-, -, hx⟩ := h.target hg
  constructor
  · rw [hg.nearestDynamic?_eq h, nearestDynamic?, ancestors]
    cases hsize : g.size with
    | zero => exact absurd (hsize ▸ hx) (Nat.not_lt_zero x)
    | succ fuel => rw [ancestorsWithin, List.find?_cons, hmarked]
  · intro name value hname hown
    obtain ⟨fuel, hfuel, heq⟩ := hg.resolve?_eq h hname
    have hcell : (g.get x).cells.get? name = some value := hown
    cases fuel with
    | zero => exact absurd hfuel (Nat.not_lt_zero x)
    | succ fuel =>
      rw [ScopeGraph.get?, heq, resolveWithin]
      simp [hcell]

/-- From a chain to the root, there is nothing to be read. -/
theorem Framed.reads_root (hg : g.Framed kept root) (h : g.Reaches root root s) :
    g.nearestDynamic? s = none ∧ ∀ name, kept name → g.get? s name = none := by
  constructor
  · rw [hg.nearestDynamic?_eq h]
    exact hg.find?_root
  · intro name hname
    obtain ⟨fuel, -, heq⟩ := hg.resolve?_eq h hname
    rw [ScopeGraph.get?, heq, hg.resolveWithin_root hname]
    rfl

end ScriptCore.ScopeGraph

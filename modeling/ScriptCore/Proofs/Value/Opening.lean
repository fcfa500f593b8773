import Mathlib.Data.Finset.Card
import Mathlib.Data.Finset.Range
import Std.Data.TreeSet.Lemmas
import ScriptCore.Value.Debug
import ScriptCore.Value.Text

/-!
# Leaving open what was found open

Whatever is entered while a value is written is left again. So every call of the writers leaves the record of
what is open as it found it (`World.restores_joining`, `World.restores_debugging`), and all parts of a content
are written with one record, the one that holds what leads down to them.
-/
namespace ScriptCore

/-! ## Computations that restore their state -/

/-- A computation leaves its state as it found it, as far as a relation tells, and its result depends on no
more of the state. -/
structure Restores {σ β : Type} (R : σ → σ → Prop) (m : StateM σ β) : Prop where
  state : ∀ s, R (m s).2 s
  result : ∀ {s s'}, R s s' → (m s).1 = (m s').1

namespace Restores

variable {α β γ σ : Type} {R : σ → σ → Prop}

theorem pure (hR : Equivalence R) (b : β) : Restores R (Pure.pure b : StateM σ β) := ⟨hR.refl, fun _ => rfl⟩

theorem bind (hR : Equivalence R) {m : StateM σ β} {f : β → StateM σ γ} (hm : Restores R m)
    (hf : ∀ b, Restores R (f b)) : Restores R (m >>= f) := by
  refine ⟨fun s => hR.trans ((hf _).state _) (hm.state s), fun {s s'} hs => ?_⟩
  have hbetween : R (m s).2 (m s').2 := hR.trans (hm.state s) (hR.trans hs (hR.symm (hm.state s')))
  calc (f (m s).1 (m s).2).1 = (f (m s).1 (m s').2).1 := (hf _).result hbetween
    _ = (f (m s').1 (m s').2).1 := by rw [hm.result hs]

/-- After a computation that restores the state, the next one finds what it would have found before. -/
theorem bind_fst {m : StateM σ β} {f : β → StateM σ γ} (hm : Restores R m) (hf : ∀ b, Restores R (f b)) (s : σ) :
    ((m >>= f) s).1 = (f (m s).1 s).1 := (hf _).result (hm.state s)

theorem mapM (hR : Equivalence R) {f : α → StateM σ β} (hf : ∀ a, Restores R (f a)) (items : List α) :
    Restores R (items.mapM f) := by
  induction items with
  | nil => exact pure hR []
  | cons item rest ih =>
    rw [List.mapM_cons]
    exact bind hR (hf item) fun _ => bind hR ih fun _ => pure hR _

/-- Of computations in a row, each one finds what the first one found. -/
theorem mapM_fst (hR : Equivalence R) {f : α → StateM σ β} (hf : ∀ a, Restores R (f a)) (items : List α) (s : σ) :
    (items.mapM f s).1 = items.map fun item => (f item s).1 := by
  induction items with
  | nil => rfl
  | cons item rest ih =>
    have hothers (b : β) : Restores R (do return b :: (← rest.mapM f)) :=
      bind hR (mapM hR hf rest) fun _ => pure hR _
    rw [List.mapM_cons, bind_fst (hf item) hothers, List.map_cons, ← ih]
    rfl

end Restores

/-! ## Guards -/

/-- Something that is not open is entered and left again without a trace. -/
structure Guard.Lawful {σ : Type} (R : σ → σ → Prop) (g : Guard σ) : Prop where
  isOpen : ∀ {s s'}, R s s' → g.isOpen s = g.isOpen s'
  enter : ∀ {s s'}, R s s' → R (g.enter s) (g.enter s')
  leave : ∀ {s s'}, R s s' → R (g.leave s) (g.leave s')
  leave_enter : ∀ {s}, g.isOpen s = false → R (g.leave (g.enter s)) s

namespace Guard

variable {σ : Type} {R : σ → σ → Prop} {g : Guard σ} {content : StateM σ String} {again : String} {s : σ}

theorem write_eq (g : Guard σ) (again : String) (content : StateM σ String) (s : σ) :
    g.write again content s =
      if g.isOpen s = true then (again, s) else ((content (g.enter s)).1, g.leave (content (g.enter s)).2) := by
  have hunfold : g.write again content s =
      (if g.isOpen s = true then Pure.pure again else (do
        modify g.enter
        let text ← content
        modify g.leave
        Pure.pure text) : StateM σ String) s := rfl
  rw [hunfold]
  split <;> rfl

theorem write_fst (g : Guard σ) (again : String) (content : StateM σ String) (s : σ) :
    (g.write again content s).1 = if g.isOpen s = true then again else (content (g.enter s)).1 := by
  rw [write_eq]
  split <;> rfl

theorem restores_write (hR : Equivalence R) (hg : g.Lawful R) (hcontent : Restores R content) :
    Restores R (g.write again content) := by
  refine ⟨fun s => ?_, fun {s s'} hs => ?_⟩
  · rw [write_eq]
    split
    · exact hR.refl s
    next hopen =>
      have hleft : R (g.leave (content (g.enter s)).2) (g.leave (g.enter s)) := hg.leave (hcontent.state _)
      exact hR.trans hleft (hg.leave_enter (Bool.eq_false_iff.mpr hopen))
  · rw [write_eq, write_eq, hg.isOpen hs, hcontent.result (hg.enter hs)]
    split <;> rfl

end Guard

namespace World

/-! ## Sets of what is open -/

theorem Opened.equivalence : Equivalence fun opened opened' : Opened => opened.Equiv opened' :=
  ⟨fun _ => .rfl, .symm, .trans⟩

theorem Opened.lawful_guard (id : Nat) :
    (Opened.guard id).Lawful fun opened opened' : Opened => opened.Equiv opened' where
  isOpen h := h.contains_eq
  enter h := h.insert id
  leave h := h.erase id
  leave_enter {opened} hclosed := by
    refine .of_forall_contains_eq fun other => ?_
    have hopen : opened.contains id = false := hclosed
    simp only [Opened.guard, Std.TreeSet.contains_erase, Std.TreeSet.contains_insert]
    by_cases h : id = other
    · subst h
      simp [hopen]
    · have hne : (compare id other == .eq) = false :=
        beq_eq_false_iff_ne.mpr fun heq => h (Std.LawfulEqCmp.eq_of_compare heq)
      rw [bne, hne, Bool.not_false, Bool.true_and, Bool.false_or]

/-- The same arrays and objects are open. -/
structure OpenThings.Same (opened opened' : OpenThings) : Prop where
  arrays : opened.arrays.Equiv opened'.arrays
  objects : opened.objects.Equiv opened'.objects

namespace OpenThings

theorem equivalence : Equivalence Same where
  refl _ := ⟨.rfl, .rfl⟩
  symm h := ⟨h.arrays.symm, h.objects.symm⟩
  trans h h' := ⟨h.arrays.trans h'.arrays, h.objects.trans h'.objects⟩

theorem lawful_arrayGuard (id : ArrayId) : (arrayGuard id).Lawful Same where
  isOpen h := h.arrays.contains_eq
  enter h := ⟨h.arrays.insert id, h.objects⟩
  leave h := ⟨h.arrays.erase id, h.objects⟩
  leave_enter hclosed := ⟨(Opened.lawful_guard id).leave_enter hclosed, .rfl⟩

theorem lawful_objectGuard (id : ObjectId) : (objectGuard id).Lawful Same where
  isOpen h := h.objects.contains_eq
  enter h := ⟨h.arrays, h.objects.insert id⟩
  leave h := ⟨h.arrays, h.objects.erase id⟩
  leave_enter hclosed := ⟨.rfl, (Opened.lawful_guard id).leave_enter hclosed⟩

end OpenThings

/-- The numbers below a bound that are not open. -/
def unopened (bound : Nat) (opened : Opened) : Finset Nat :=
  (Finset.range bound).filter fun id => opened.contains id = false

theorem card_unopened_le (bound : Nat) (opened : Opened) : (unopened bound opened).card ≤ bound := by
  have hle := Finset.card_filter_le (Finset.range bound) fun id => opened.contains id = false
  rwa [Finset.card_range] at hle

/-- Opening a number leaves fewer to open. -/
theorem card_unopened_insert {bound id : Nat} {opened : Opened} (hid : id < bound)
    (hclosed : opened.contains id = false) :
    (unopened bound (opened.insert id)).card < (unopened bound opened).card := by
  refine Finset.card_lt_card (Finset.ssubset_iff_subset_ne.mpr ⟨fun other hother => ?_, fun heq => ?_⟩)
  · simp only [unopened, Finset.mem_filter, Std.TreeSet.contains_insert, Bool.or_eq_false_iff] at hother ⊢
    exact ⟨hother.1, hother.2.2⟩
  · have hmem : id ∈ unopened bound opened := by simp [unopened, hid, hclosed]
    rw [← heq] at hmem
    simp [unopened, Std.TreeSet.contains_insert] at hmem

variable {w : World} {id : Nat}

theorem array_of_le (h : w.arrays.size ≤ id) : w.array id = #[] := by
  have hnone : w.arrays[id]? = none := Array.getElem?_eq_none h
  rw [array, hnone]
  rfl

theorem object_of_le (h : w.objects.size ≤ id) : w.object id = ∅ := by
  have hnone : w.objects[id]? = none := Array.getElem?_eq_none h
  rw [object, hnone]
  rfl

/-! ## Joining -/

/-- **Joining leaves the open arrays as it found them.** -/
theorem restores_joining (w : World) (fuel : Nat) (value : Value) :
    Restores (fun opened opened' : Opened => opened.Equiv opened') (w.joining fuel value) := by
  induction fuel generalizing value with
  | zero =>
    cases value with
    | array id => exact Guard.restores_write Opened.equivalence (Opened.lawful_guard id) (.pure Opened.equivalence _)
    | _ => exact .pure Opened.equivalence _
  | succ fuel ih =>
    cases value with
    | array id =>
      refine Guard.restores_write Opened.equivalence (Opened.lawful_guard id) ?_
      exact .bind Opened.equivalence (.mapM Opened.equivalence ih _) fun _ => .pure Opened.equivalence _
    | _ => exact .pure Opened.equivalence _

variable {opened : Opened}

/-- An array is joined element by element, itself being open. -/
theorem joined_array (fuel : Nat) : w.joined (fuel + 1) opened (.array id) =
    if opened.contains id then "" else
      ",".intercalate ((w.array id).toList.map (w.joined fuel (opened.insert id))) := by
  calc w.joined (fuel + 1) opened (.array id)
      = if opened.contains id then "" else
          ",".intercalate ((w.array id).toList.mapM (w.joining fuel) (opened.insert id)).1 :=
        Guard.write_fst (Opened.guard id) _ _ opened
    _ = _ := by
      rw [Restores.mapM_fst Opened.equivalence (w.restores_joining fuel)]
      rfl

/-- No array is joined down to no levels. -/
theorem joined_array_zero : w.joined 0 opened (.array id) = "" := by
  rw [joined, joining, Guard.write_fst]
  split <;> rfl

/-! ## Debugging texts -/

theorem restores_entry {fuel : Nat} (h : ∀ value, Restores OpenThings.Same (w.debugging fuel value))
    (entry : String × Value) : Restores OpenThings.Same (do return (entry.1, ← w.debugging fuel entry.2)) :=
  .bind OpenThings.equivalence (h entry.2) fun _ => .pure OpenThings.equivalence _

/-- **Writing a debugging text leaves what is open as it found it.** -/
theorem restores_debugging (w : World) (fuel : Nat) (value : Value) :
    Restores OpenThings.Same (w.debugging fuel value) := by
  have hR := OpenThings.equivalence
  induction fuel generalizing value with
  | zero =>
    cases value with
    | array id => exact Guard.restores_write hR (OpenThings.lawful_arrayGuard id) (.pure hR _)
    | object id => exact Guard.restores_write hR (OpenThings.lawful_objectGuard id) (.pure hR _)
    | _ => exact .pure hR _
  | succ fuel ih =>
    cases value with
    | array id =>
      refine Guard.restores_write hR (OpenThings.lawful_arrayGuard id) ?_
      exact .bind hR (.mapM hR ih _) fun _ => .pure hR _
    | object id =>
      refine Guard.restores_write hR (OpenThings.lawful_objectGuard id) ?_
      exact .bind hR (.mapM hR (restores_entry ih) _) fun _ => .pure hR _
    | _ => exact .pure hR _

end World

end ScriptCore

import ScriptCore.Proofs.Eval.Contract

/-!
# The course of a run

A contract says what holds of each world of a run. A course also says how its worlds follow one another:
from any task on, what a run does leads to later worlds only, and what a task leaves behind in the world it
starts in stays. Again this is seen from the computations (`Computation.Runs`), and holds of a run if it
holds of every task that is carried out on the way (`Course.pairwise_trace`).
-/
namespace ScriptCore

/-- An invariant of worlds, an order in which they follow one another, what holds of a task that is asked
for in a world, and what holds in later worlds of a task that was carried out. -/
structure Course where
  inv : World → Prop
  later : World → World → Prop
  asks : Task → World → Prop
  leaves : Task → World → World → Prop
  refl : ∀ w, later w w
  trans : ∀ {w₁ w₂ w₃}, later w₁ w₂ → later w₂ w₃ → later w₁ w₃
  asks_later : ∀ {task w w'}, inv w → later w w' → asks task w → asks task w'
  leaves_later : ∀ {task w w₁ w₂}, later w₁ w₂ → leaves task w w₁ → leaves task w w₂

namespace Computation

variable {α β : Type} {k : Course}

/-- A computation goes from one world of the course to later ones, whatever tasks it asks for do within
the course, and comes to a value as `post` says. -/
def Runs (k : Course) (post : α → World → Prop) (origin : World) : Computation α → Prop
  | .done (.ok a) w => k.inv w ∧ k.later origin w ∧ post a w
  | .done (.error _) w => k.inv w ∧ k.later origin w
  | .ask task w resume => k.inv w ∧ k.later origin w ∧ k.asks task w ∧
    ∀ outcome w', k.inv w' → k.later w w' → (resume outcome w').Runs k post w'
  | .brokenOff => True

variable {c : Computation α} {post : α → World → Prop} {w₀ w₁ : World}

/-- It may as well go from an earlier world. -/
theorem Runs.since (h : c.Runs k post w₁) (hlater : k.later w₀ w₁) : c.Runs k post w₀ := by
  cases c with
  | done outcome w =>
    cases outcome with
    | ok a =>
      obtain ⟨hinv, hw, hpost⟩ := h
      exact ⟨hinv, k.trans hlater hw, hpost⟩
    | error e =>
      obtain ⟨hinv, hw⟩ := h
      exact ⟨hinv, k.trans hlater hw⟩
  | ask task w resume =>
    obtain ⟨hinv, hw, hasks, hresume⟩ := h
    exact ⟨hinv, k.trans hlater hw, hasks, hresume⟩
  | brokenOff => trivial

theorem Runs.mono {post' : α → World → Prop} (h : c.Runs k post w₁) (hlater : k.later w₀ w₁)
    (hpost : ∀ a w, k.later w₀ w → post a w → post' a w) : c.Runs k post' w₁ := by
  induction c generalizing w₁ with
  | done outcome w =>
    cases outcome with
    | ok a =>
      obtain ⟨hinv, hw, ha⟩ := h
      exact ⟨hinv, hw, hpost a w (k.trans hlater hw) ha⟩
    | error e => exact h
  | ask task w resume ih =>
    obtain ⟨hinv, hw, hasks, hresume⟩ := h
    exact ⟨hinv, hw, hasks, fun outcome w' hinv' hw' =>
      ih outcome w' (hresume outcome w' hinv' hw') (k.trans hlater (k.trans hw hw'))⟩
  | brokenOff => trivial

theorem Runs.andThen {f : α → World → Computation β} {goal : β → World → Prop}
    (h : c.Runs k post w₁) (hlater : k.later w₀ w₁)
    (hf : ∀ a w, k.inv w → k.later w₀ w → post a w → (f a w).Runs k goal w) :
    (c.andThen f).Runs k goal w₁ := by
  induction c generalizing w₁ with
  | done outcome w =>
    cases outcome with
    | ok a =>
      obtain ⟨hinv, hw, ha⟩ := h
      exact (hf a w hinv (k.trans hlater hw) ha).since hw
    | error e => exact h
  | ask task w resume ih =>
    obtain ⟨hinv, hw, hasks, hresume⟩ := h
    exact ⟨hinv, hw, hasks, fun outcome w' hinv' hw' =>
      ih outcome w' (hresume outcome w' hinv' hw') (k.trans hlater (k.trans hw hw'))⟩
  | brokenOff => trivial

theorem Runs.caught (h : c.Runs k post w₁) : c.caught.Runs k (fun _ _ => True) w₁ := by
  induction c generalizing w₁ with
  | done outcome w =>
    cases outcome with
    | ok a => exact ⟨h.1, h.2.1, trivial⟩
    | error e => exact ⟨h.1, h.2, trivial⟩
  | ask task w resume ih =>
    obtain ⟨hinv, hw, hasks, hresume⟩ := h
    exact ⟨hinv, hw, hasks, fun outcome w' hinv' hw' => ih outcome w' (hresume outcome w' hinv' hw')⟩
  | brokenOff => trivial

theorem Runs.raisedAt (h : c.Runs k post w₁) (n : NodeId) : (c.raisedAt n).Runs k post w₁ := by
  induction c generalizing w₁ with
  | done outcome w => cases outcome <;> exact h
  | ask task w resume ih =>
    obtain ⟨hinv, hw, hasks, hresume⟩ := h
    exact ⟨hinv, hw, hasks, fun outcome w' hinv' hw' => ih outcome w' (hresume outcome w' hinv' hw')⟩
  | brokenOff => trivial

end Computation

namespace Course

variable (k : Course)

/-- A task may hand over to another one that is in order. -/
def Hands : Ending → World → Prop
  | .value _, _ => True
  | .handOver task, w => k.asks task w

/-- The tasks of a run, each in its world, keep to the course when an evaluator carries them out: from
a world where all is left that a task leaves behind. -/
def KeptBy (ev : Evaluator) (run : List (Task × World)) : Prop :=
  ∀ task w, (task, w) ∈ run → k.inv w → k.asks task w → ∃ start, k.later w start ∧
    k.leaves task w start ∧ (ev.carryOut task w).Runs k k.Hands start

/-- What waits on a stack goes on from every world after the given one. -/
def Awaits (stack : List Evaluator.Waiting) (origin : World) : Prop :=
  ∀ next ∈ stack, ∀ outcome w, k.inv w → k.later origin w → (next outcome w).Runs k k.Hands w

variable {k} {ev : Evaluator} {run : List (Task × World)} {origin : World}

theorem Awaits.since {stack : List Evaluator.Waiting} {w : World} (h : k.Awaits stack origin)
    (hlater : k.later origin w) : k.Awaits stack w := fun next hnext outcome w' hinv hw' =>
  h next hnext outcome w' hinv (k.trans hlater hw')

theorem Awaits.push {stack : List Evaluator.Waiting} {w : World} {next : Evaluator.Waiting}
    (h : k.Awaits stack origin) (hlater : k.later origin w)
    (hnext : ∀ outcome w', k.inv w' → k.later w w' → (next outcome w').Runs k k.Hands w') :
    k.Awaits (next :: stack) w := by
  intro other hother
  cases List.mem_cons.mp hother with
  | inl heq => exact heq ▸ hnext
  | inr hmem => exact h.since hlater other hmem

/-- Tasks that are carried out one after another: each is in order and starts in a world of the course,
later than those before it, and what earlier ones left behind is there. -/
structure Orders (k : Course) (origin : World) (entries : List (Task × World)) : Prop where
  each : ∀ entry ∈ entries, k.inv entry.2 ∧ k.later origin entry.2 ∧ k.asks entry.1 entry.2
  order : entries.Pairwise fun first second =>
    k.later first.2 second.2 ∧ k.leaves first.1 first.2 second.2

theorem orders_nil : k.Orders origin [] := ⟨fun _ h => (nomatch h), .nil⟩

theorem Orders.since {w : World} {entries : List (Task × World)} (h : k.Orders w entries)
    (hlater : k.later origin w) : k.Orders origin entries where
  each entry hentry :=
    have ⟨hinv, hw, hasks⟩ := h.each entry hentry
    ⟨hinv, k.trans hlater hw, hasks⟩
  order := h.order

theorem Orders.cons {task : Task} {w start : World} {entries : List (Task × World)}
    (h : k.Orders start entries) (hinv : k.inv w) (hw : k.later origin w) (hasks : k.asks task w)
    (hstart : k.later w start) (hleaves : k.leaves task w start) :
    k.Orders origin ((task, w) :: entries) where
  each := List.forall_mem_cons.mpr ⟨⟨hinv, hw, hasks⟩, (h.since (k.trans hw hstart)).each⟩
  order := List.pairwise_cons.mpr ⟨fun entry hentry =>
    have ⟨_, hlater, _⟩ := h.each entry hentry
    ⟨k.trans hstart hlater, k.leaves_later hlater hleaves⟩, h.order⟩

/-- Of two tasks that are carried out, one comes first. -/
theorem Orders.compare {entries : List (Task × World)} (h : k.Orders origin entries)
    {task task' : Task} {w w' : World} (hmem : (task, w) ∈ entries) (hmem' : (task', w') ∈ entries) :
    (task, w) = (task', w') ∨ (k.later w w' ∧ k.leaves task w w') ∨
      (k.later w' w ∧ k.leaves task' w' w) := by
  obtain ⟨i, hi, heq⟩ := List.getElem_of_mem hmem
  obtain ⟨j, hj, heq'⟩ := List.getElem_of_mem hmem'
  have horder := List.pairwise_iff_getElem.mp h.order
  rcases Nat.lt_trichotomy i j with hlt | rfl | hlt
  · have hij := horder i j hi hj hlt
    rw [heq, heq'] at hij
    exact Or.inr (Or.inl hij)
  · exact Or.inl (heq.symm.trans heq')
  · have hji := horder j i hj hi hlt
    rw [heq, heq'] at hji
    exact Or.inr (Or.inr hji)

/-- **The course of a run.** If all its tasks keep to a course, so does their order. -/
theorem orders_trace (hk : k.KeptBy ev run) (steps : Nat) (c : Computation Ending)
    (stack : List Evaluator.Waiting) (hrun : ∀ entry ∈ ev.trace steps c stack, entry ∈ run)
    (hc : c.Runs k k.Hands origin) (hstack : k.Awaits stack origin) :
    k.Orders origin (ev.trace steps c stack) := by
  fun_induction Evaluator.trace ev steps c stack generalizing origin with
  | case1 => exact orders_nil
  | case2 steps task w resume stack ih =>
    obtain ⟨hinv, hw, hasks, hresume⟩ := hc
    obtain ⟨hin, hrun⟩ := List.forall_mem_cons.mp hrun
    obtain ⟨start, hstart, hleaves, hcarry⟩ := hk task w hin hinv hasks
    have hdeeper : k.Awaits (resume :: stack) start :=
      hstack.push (k.trans hw hstart) fun outcome w' hw' hlater =>
        hresume outcome w' hw' (k.trans hstart hlater)
    exact (ih hrun hcarry hdeeper).cons hinv hw hasks hstart hleaves
  | case3 steps task w stack ih =>
    obtain ⟨hinv, hw, hasks⟩ := hc
    obtain ⟨hin, hrun⟩ := List.forall_mem_cons.mp hrun
    obtain ⟨start, hstart, hleaves, hcarry⟩ := hk task w hin hinv hasks
    exact (ih hrun hcarry (hstack.since (k.trans hw hstart))).cons hinv hw hasks hstart hleaves
  | case4 steps value w next stack ih =>
    obtain ⟨hinv, hw, -⟩ := hc
    obtain ⟨hnext, hrest⟩ := List.forall_mem_cons.mp hstack
    exact (ih hrun (hnext (.ok value) w hinv hw) (Awaits.since hrest hw)).since hw
  | case5 steps e w next stack ih =>
    obtain ⟨hinv, hw⟩ := hc
    obtain ⟨hnext, hrest⟩ := List.forall_mem_cons.mp hstack
    exact (ih hrun (hnext (.error e) w hinv hw) (Awaits.since hrest hw)).since hw
  | case6 => exact orders_nil

/-- So it is for all tasks that are carried out while a task is performed. -/
theorem orders_performed {steps : Nat} {task : Task} {w : World}
    (hk : k.KeptBy ev (ev.performed steps task w)) (hinv : k.inv w) (hasks : k.asks task w) :
    k.Orders w (ev.performed steps task w) := by
  obtain ⟨start, hstart, hleaves, hcarry⟩ := hk task w List.mem_cons_self hinv hasks
  have htrace : k.Orders start (ev.trace steps (ev.carryOut task w) []) :=
    orders_trace hk steps _ [] (fun entry => List.mem_cons_of_mem _) hcarry fun _ h => nomatch h
  exact htrace.cons hinv (k.refl w) hasks hstart hleaves

end Course

end ScriptCore

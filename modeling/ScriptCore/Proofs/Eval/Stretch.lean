import Mathlib.Data.List.Chain
import ScriptCore.Proofs.Eval.Contract

/-!
# Stretches of a run

Tasks are not carried out in one go. A computation goes from where it starts, or is resumed, to where it
asks for another task or ends, and so a run is a chain of stretches: each belongs to one task and starts
in the world that the one before it stopped in.

A gait says what one stretch may do to the world and what may be asked for at its end. It is seen from the
computation alone (`Computation.Goes`, and `Eval.Goes` with one rule for each way to build a step of the
evaluator), whatever the tasks in between do to the world. If every task has its gait, then so does every
stretch of a run (`Evaluator.stretches_go`), and what all gaits have in common holds between any two worlds
of the run (`Evaluator.pairwise_worlds`).
-/
namespace ScriptCore

/-- The activation that a task other than a call belongs to. -/
def Task.activation? : Task → Option Activation
  | .eval a _ _ | .bind a _ _ _ _ | .loop a _ _ _ => some a
  | .call _ _ _ _ => none

def Task.IsCall : Task → Prop
  | .call _ _ _ _ => True
  | _ => False

theorem Task.activation?_of_isCall {task : Task} (h : task.IsCall) : task.activation? = none := by
  cases task with
  | call depth callee receiver args => rfl
  | _ => exact h.elim

/-- A part of a run in which one task goes on without another one: from one world to the next. -/
structure Stretch where
  task : Task
  start : World
  stop : World

namespace Evaluator

variable {ev : Evaluator}

/-- The stretches of a run within a number of steps, in order. The steps are those of `Evaluator.run`: a
computation that carries out a task has come from a world, and what waits on the stack carries out tasks
as well. -/
def stretches (ev : Evaluator) :
    Nat → Task → World → Computation Ending → List (Task × Waiting) → List Stretch
  | 0, _, _, _, _ => []
  | steps + 1, task, w₀, .ask next w resume, stack =>
    ⟨task, w₀, w⟩ :: stretches ev steps next w (ev.carryOut next w) ((task, resume) :: stack)
  | steps + 1, task, w₀, .done (.ok (.handOver next)) w, stack =>
    ⟨task, w₀, w⟩ :: stretches ev steps next w (ev.carryOut next w) stack
  | steps + 1, task, w₀, .done (.ok (.value value)) w, (caller, resume) :: stack =>
    ⟨task, w₀, w⟩ :: stretches ev steps caller w (resume (.ok value) w) stack
  | steps + 1, task, w₀, .done (.error e) w, (caller, resume) :: stack =>
    ⟨task, w₀, w⟩ :: stretches ev steps caller w (resume (.error e) w) stack
  | _ + 1, task, w₀, .done _ w, [] => [⟨task, w₀, w⟩]
  | _ + 1, _, _, .brokenOff, _ => []

/-- The stretches of carrying out a task within a number of steps. -/
def stretchesOf (ev : Evaluator) (steps : Nat) (task : Task) (w : World) : List Stretch :=
  ev.stretches steps task w (ev.carryOut task w) []

/-- The worlds that carrying out a task goes through: the first one, and the one at the end of each
stretch. -/
def worlds (ev : Evaluator) (steps : Nat) (task : Task) (w : World) : List World :=
  w :: (ev.stretchesOf steps task w).map Stretch.stop

/-- The world that a run ends in is among those that it goes through. -/
theorem mem_stops_of_run {steps : Nat} {task : Task} {w₀ w' : World} {c : Computation Ending}
    {stack : List (Task × Waiting)} {outcome : Except Abrupt Value}
    (h : ev.run steps c (stack.map Prod.snd) = .ended (outcome, w')) :
    w' ∈ (ev.stretches steps task w₀ c stack).map Stretch.stop := by
  fun_induction stretches ev steps task w₀ c stack with
  | case1 => cases h
  | case2 steps task w₀ next w resume stack ih => exact List.mem_cons_of_mem _ (ih h)
  | case3 steps task w₀ next w stack ih => exact List.mem_cons_of_mem _ (ih h)
  | case4 steps task w₀ value w caller resume stack ih => exact List.mem_cons_of_mem _ (ih h)
  | case5 steps task w₀ e w caller resume stack ih => exact List.mem_cons_of_mem _ (ih h)
  | case6 steps task w₀ result w hresult =>
    cases result with
    | error e =>
      cases h
      exact List.mem_singleton_self _
    | ok ending =>
      cases ending with
      | value value =>
        cases h
        exact List.mem_singleton_self _
      | handOver next => exact absurd rfl (hresult next)
  | case7 => cases h

theorem mem_worlds_of_ended {steps : Nat} {task : Task} {w w' : World} {outcome : Except Abrupt Value}
    (h : ev.perform steps task w = .ended (outcome, w')) : w' ∈ ev.worlds steps task w :=
  List.mem_cons_of_mem _ (@mem_stops_of_run _ _ _ _ _ _ [] _ h)

/-- **Stretches join.** What holds of every stretch of a run, and goes on from world to world, holds
between any two worlds of the run. -/
theorem isChain_stops {R : World → World → Prop} [IsTrans World R] {steps : Nat} {task : Task} {w₀ : World}
    {c : Computation Ending} {stack : List (Task × Waiting)}
    (h : ∀ s ∈ ev.stretches steps task w₀ c stack, R s.start s.stop) :
    (w₀ :: (ev.stretches steps task w₀ c stack).map Stretch.stop).IsChain R := by
  fun_induction stretches ev steps task w₀ c stack with
  | case1 => exact .singleton _
  | case2 steps task w₀ next w resume stack ih | case3 steps task w₀ next w stack ih
  | case4 steps task w₀ value w caller resume stack ih | case5 steps task w₀ e w caller resume stack ih =>
    obtain ⟨hfirst, hrest⟩ := List.forall_mem_cons.mp h
    exact .cons_cons hfirst (ih hrest)
  | case6 steps task w₀ result w => exact .cons_cons (h _ (List.mem_singleton_self _)) (.singleton _)
  | case7 => exact .singleton _

theorem pairwise_worlds {R : World → World → Prop} [IsTrans World R] {steps : Nat} {task : Task} {w : World}
    (h : ∀ s ∈ ev.stretchesOf steps task w, R s.start s.stop) :
    (ev.worlds steps task w).Pairwise R := List.isChain_iff_pairwise.mp (isChain_stops h)

end Evaluator

/-- What a stretch may do to the world, and what may be asked for. -/
structure Gait where
  moves : World → World → Prop
  asks : Task → Prop
  refl : ∀ w, moves w w
  trans : ∀ {w₁ w₂ w₃}, moves w₁ w₂ → moves w₂ w₃ → moves w₁ w₃

namespace Computation

variable {α β : Type} {k : Gait}

/-- A computation goes from a world in the given gait, whatever is done in between by the tasks that it
asks for, and comes to a value that satisfies `ok`. -/
def Goes (k : Gait) (ok : α → Prop) (origin : World) : Computation α → Prop
  | .done (.ok a) w => k.moves origin w ∧ ok a
  | .done (.error _) w => k.moves origin w
  | .ask task w resume =>
    k.moves origin w ∧ k.asks task ∧ ∀ outcome w', (resume outcome w').Goes k ok w'
  | .brokenOff => True

variable {c : Computation α} {ok : α → Prop} {w₀ w₁ : World}

/-- It may as well go from an earlier world. -/
theorem Goes.since (h : c.Goes k ok w₁) (hmoves : k.moves w₀ w₁) : c.Goes k ok w₀ := by
  cases c with
  | done outcome w =>
    cases outcome with
    | ok a => exact ⟨k.trans hmoves h.1, h.2⟩
    | error e => exact k.trans hmoves h
  | ask task w resume => exact ⟨k.trans hmoves h.1, h.2⟩
  | brokenOff => trivial

theorem Goes.mono {ok' : α → Prop} (h : c.Goes k ok w₀) (hok : ∀ a, ok a → ok' a) :
    c.Goes k ok' w₀ := by
  induction c generalizing w₀ with
  | done outcome w =>
    cases outcome with
    | ok a => exact ⟨h.1, hok a h.2⟩
    | error e => exact h
  | ask task w resume ih => exact ⟨h.1, h.2.1, fun outcome w' => ih outcome w' (h.2.2 outcome w')⟩
  | brokenOff => trivial

theorem Goes.andThen {f : α → World → Computation β} {goal : β → Prop} (h : c.Goes k ok w₀)
    (hf : ∀ a w, ok a → (f a w).Goes k goal w) : (c.andThen f).Goes k goal w₀ := by
  induction c generalizing w₀ with
  | done outcome w =>
    cases outcome with
    | ok a => exact (hf a w h.2).since h.1
    | error e => exact h
  | ask task w resume ih => exact ⟨h.1, h.2.1, fun outcome w' => ih outcome w' (h.2.2 outcome w')⟩
  | brokenOff => trivial

theorem Goes.caught (h : c.Goes k ok w₀) : c.caught.Goes k (fun _ => True) w₀ := by
  induction c generalizing w₀ with
  | done outcome w =>
    cases outcome with
    | ok a => exact ⟨h.1, trivial⟩
    | error e => exact ⟨h, trivial⟩
  | ask task w resume ih => exact ⟨h.1, h.2.1, fun outcome w' => ih outcome w' (h.2.2 outcome w')⟩
  | brokenOff => trivial

theorem Goes.raisedAt (h : c.Goes k ok w₀) (n : NodeId) : (c.raisedAt n).Goes k ok w₀ := by
  induction c generalizing w₀ with
  | done outcome w => cases outcome <;> exact h
  | ask task w resume ih => exact ⟨h.1, h.2.1, fun outcome w' => ih outcome w' (h.2.2 outcome w')⟩
  | brokenOff => trivial

end Computation

namespace Eval

variable {α β : Type} {k : Gait} {ok : α → Prop}

/-- From every world, a step goes in the given gait. -/
def Goes (k : Gait) (ok : α → Prop) (m : Eval α) : Prop := ∀ w, (m w).Goes k ok w

theorem Goes.mono {ok' : α → Prop} {m : Eval α} (h : m.Goes k ok) (hok : ∀ a, ok a → ok' a) :
    m.Goes k ok' := fun w => (h w).mono hok

theorem Goes.bind {mid : β → Prop} {m : Eval β} {f : β → Eval α} (hm : m.Goes k mid)
    (hf : ∀ b, mid b → (f b).Goes k ok) : (m >>= f).Goes k ok := fun w =>
  (hm w).andThen fun b w' hb => hf b hb w'

theorem Goes.catching {m : Eval α} (hm : m.Goes k ok) : m.catching.Goes k fun _ => True := fun w =>
  (hm w).caught

theorem Goes.raisedAt {m : Eval α} (hm : m.Goes k ok) (n : NodeId) : (m.raisedAt n).Goes k ok := fun w =>
  (hm w).raisedAt n

theorem goes_pure {a : α} (h : ok a) : (pure a : Eval α).Goes k ok := fun w => ⟨k.refl w, h⟩

theorem Goes.map {mid : β → Prop} {m : Eval β} {f : β → α} (hm : m.Goes k mid)
    (hf : ∀ b, mid b → ok (f b)) : (f <$> m).Goes k ok := hm.bind fun b hb => goes_pure (hf b hb)

theorem goes_abrupt (e : Abrupt) : (abrupt e : Eval α).Goes k ok := fun w => k.refl w

theorem goes_fail (cause : Cause) : (fail cause : Eval α).Goes k ok := goes_abrupt _

theorem goes_reads {f : World → α} (h : ∀ w, ok (f w)) : (reads f).Goes k ok := fun w =>
  ⟨k.refl w, h w⟩

theorem goes_checks {f : World → Except Cause α} (h : ∀ w a, f w = .ok a → ok a) :
    (checks f).Goes k ok := by
  intro w
  rw [checks]
  split
  next a ha => exact ⟨k.refl w, h w a ha⟩
  · exact k.refl w

theorem goes_makes {f : World → α × World} (h : ∀ w, k.moves w (f w).2 ∧ ok (f w).1) :
    (makes f).Goes k ok := fun w => h w

theorem goes_scopes {f : ScopeGraph → ScopeGraph} (h : ∀ w : World, k.moves w (w.modifyScopes f)) :
    (scopes f).Goes k fun _ => True := fun w => ⟨h w, trivial⟩

theorem goes_attempts {f : World → Except Cause α × World} (h : ∀ w, k.moves w (f w).2)
    (hok : ∀ w a, (f w).1 = .ok a → ok a) : (attempts f).Goes k ok := by
  intro w
  have hmoves := h w
  have hvalue := hok w
  rw [attempts]
  split
  next a w' heq =>
    rw [heq] at hmoves hvalue
    exact ⟨hmoves, hvalue a rfl⟩
  next cause w' heq =>
    rw [heq] at hmoves
    exact hmoves

theorem goes_risks {f : World → Option (Except Cause α × World)}
    (h : ∀ w r, f w = some r → k.moves w r.2) (hok : ∀ w a w', f w = some (.ok a, w') → ok a) :
    (risks f).Goes k ok := by
  intro w
  rw [risks]
  split
  next a w' heq => exact ⟨h w _ heq, hok w a w' heq⟩
  next cause w' heq => exact h w _ heq
  · trivial

theorem goes_ask {task : Task} (h : k.asks task) : (ask task).Goes k fun _ => True := fun w =>
  ⟨k.refl w, h, fun
    | .ok _, w' => ⟨k.refl w', trivial⟩
    | .error _, w' => k.refl w'⟩

end Eval

namespace Gait

/-- A task may hand over to another one that may be asked for. -/
def Hands (k : Gait) : Ending → Prop
  | .value _ => True
  | .handOver task => k.asks task

/-- A task that comes to a value hands over to nothing. -/
theorem hands_value {α : Type} {k : Gait} {ok : α → Prop} {m : Eval α} (h : m.Goes k ok) (f : α → Value) :
    ((fun a => Ending.value (f a)) <$> m).Goes k k.Hands := h.map fun _ _ => trivial

/-- All tasks in order go in their gaits, and ask for tasks in order. -/
structure KeptBy (k : Task → Gait) (good : Task → Prop) (ev : Evaluator) : Prop where
  goes : ∀ task w, good task → (ev.carryOut task w).Goes (k task) (k task).Hands w
  asks : ∀ task next, good task → (k task).asks next → good next

/-- What waits on a stack goes on in its gait. -/
def Awaits (k : Task → Gait) (good : Task → Prop) (stack : List (Task × Evaluator.Waiting)) : Prop :=
  ∀ frame ∈ stack, good frame.1 ∧ ∀ outcome w, (frame.2 outcome w).Goes (k frame.1) (k frame.1).Hands w

end Gait

namespace Evaluator

variable {ev : Evaluator} {k : Task → Gait} {good : Task → Prop}

/-- **The gait of a run.** If all its tasks go in their gaits, then so does each of its stretches. -/
theorem stretches_go (hk : Gait.KeptBy k good ev) {steps : Nat} {task : Task} {w₀ : World}
    {c : Computation Ending} {stack : List (Task × Waiting)} (htask : good task)
    (hc : c.Goes (k task) (k task).Hands w₀) (hstack : Gait.Awaits k good stack) :
    ∀ s ∈ ev.stretches steps task w₀ c stack, good s.task ∧ (k s.task).moves s.start s.stop := by
  fun_induction stretches ev steps task w₀ c stack with
  | case1 => simp
  | case2 steps task w₀ next w resume stack ih =>
    obtain ⟨hmoves, hasks, hresume⟩ := hc
    have hnext := hk.asks task next htask hasks
    exact List.forall_mem_cons.mpr ⟨⟨htask, hmoves⟩, ih hnext (hk.goes next w hnext)
      (List.forall_mem_cons.mpr ⟨⟨htask, hresume⟩, hstack⟩)⟩
  | case3 steps task w₀ next w stack ih =>
    obtain ⟨hmoves, hasks⟩ := hc
    have hnext := hk.asks task next htask hasks
    exact List.forall_mem_cons.mpr ⟨⟨htask, hmoves⟩, ih hnext (hk.goes next w hnext) hstack⟩
  | case4 steps task w₀ value w caller resume stack ih =>
    obtain ⟨⟨hcaller, hresume⟩, hrest⟩ := List.forall_mem_cons.mp hstack
    exact List.forall_mem_cons.mpr ⟨⟨htask, hc.1⟩, ih hcaller (hresume (.ok value) w) hrest⟩
  | case5 steps task w₀ e w caller resume stack ih =>
    obtain ⟨⟨hcaller, hresume⟩, hrest⟩ := List.forall_mem_cons.mp hstack
    exact List.forall_mem_cons.mpr ⟨⟨htask, hc⟩, ih hcaller (hresume (.error e) w) hrest⟩
  | case6 steps task w₀ result w =>
    have hmoves : (k task).moves w₀ w := by
      cases result with
      | ok ending => exact hc.1
      | error e => exact hc
    exact List.forall_mem_cons.mpr ⟨⟨htask, hmoves⟩, by simp⟩
  | case7 => simp

theorem stretchesOf_go (hk : Gait.KeptBy k good ev) {steps : Nat} {task : Task} {w : World}
    (htask : good task) :
    ∀ s ∈ ev.stretchesOf steps task w, good s.task ∧ (k s.task).moves s.start s.stop :=
  stretches_go hk htask (hk.goes task w htask) (by simp [Gait.Awaits])

end Evaluator

end ScriptCore

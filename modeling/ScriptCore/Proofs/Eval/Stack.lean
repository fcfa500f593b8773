import ScriptCore.Eval.Machine

/-!
# Runs on top of others

A computation does not see what waits beneath it: a run that comes to an end on one stack goes in the
same way on a deeper one, and hands its outcome over to what waits there.
-/
namespace ScriptCore

/-- An outcome that is handed over. -/
def Computation.delivered (outcome : Except Abrupt Value) (w : World) : Computation Ending :=
  .done (outcome.map Ending.value) w

namespace Run

/-- Go on with the result of a run. -/
def andThen {α β : Type} (run : Run α) (f : α → Run β) : Run β :=
  match run with
  | .ended result => f result
  | .brokeOff => .brokeOff
  | .outOfSteps => .outOfSteps

end Run

namespace Evaluator

variable {ev : Evaluator}

/-- More steps than it takes change nothing. -/
theorem run_add {steps : Nat} {c : Computation Ending} {stack : List Waiting}
    (h : ev.run steps c stack ≠ .outOfSteps) (more : Nat) :
    ev.run (steps + more) c stack = ev.run steps c stack := by
  fun_induction Evaluator.run ev steps c stack
  case case1 => exact absurd rfl h
  case case2 ih | case3 ih | case4 ih | case5 ih =>
    rw [Nat.succ_add]
    exact ih h
  case case6 | case7 | case8 =>
    rw [Nat.succ_add]
    rfl

/-- A run that comes to an end on a stack does so on a deeper one, after some steps, and hands its
outcome over to what is beneath. -/
theorem run_append {steps : Nat} {c : Computation Ending} {stack : List Waiting}
    (h : ev.run steps c stack ≠ .outOfSteps) : ∃ used, ∀ more rest,
      ev.run (used + more) c (stack ++ rest) =
        (ev.run steps c stack).andThen fun (outcome, w) => ev.run more (.delivered outcome w) rest := by
  fun_induction Evaluator.run ev steps c stack
  case case1 => exact absurd rfl h
  case case2 ih | case3 ih | case4 ih | case5 ih =>
    obtain ⟨used, hused⟩ := ih h
    refine ⟨used + 1, fun more rest => ?_⟩
    rw [Nat.add_right_comm]
    exact hused more rest
  case case6 | case7 => exact ⟨0, fun more rest => by rw [Nat.zero_add]; rfl⟩
  case case8 => exact ⟨1, fun more rest => by rw [Nat.add_comm]; rfl⟩

/-- A task that is asked for is performed, and its outcome handed to what asked for it. -/
theorem run_ask {steps : Nat} {task : Task} {w : World} (h : ev.perform steps task w ≠ .outOfSteps)
    (resume : Waiting) : ∃ used, ∀ more stack, ev.run (used + more) (.ask task w resume) stack =
      (ev.perform steps task w).andThen fun result => ev.run more (resume result.1 result.2) stack := by
  obtain ⟨used, hused⟩ := run_append h
  refine ⟨used + 2, fun more stack => ?_⟩
  have hstart : ev.run (used + 2 + more) (.ask task w resume) stack =
      ev.run (used + (more + 1)) (ev.carryOut task w) (resume :: stack) := by
    rw [Nat.add_right_comm]
    rfl
  have hresume (result : Except Abrupt Value × World) :
      ev.run (more + 1) (.delivered result.1 result.2) (resume :: stack) =
        ev.run more (resume result.1 result.2) stack := by
    obtain ⟨outcome, w'⟩ := result
    cases outcome <;> rfl
  rw [hstart, ← List.nil_append (resume :: stack), hused, perform]
  exact congrArg _ (funext hresume)

end Evaluator

end ScriptCore

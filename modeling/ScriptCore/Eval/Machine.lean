import ScriptCore.Eval.Step

/-!
# The machine

Tasks are carried out one at a time. A computation that asks for a task waits on a stack until the
task's outcome is known; so nesting costs entries of this stack and nothing else, and deep recursion
of the evaluated program is limited by `Limits.maxCallDepth` alone. Some programs never end, so the
machine takes a number of steps and says so when they are used up.
-/
namespace ScriptCore

/-- How a run of the machine ends. -/
inductive Run (α : Type) where
  | ended (result : α)
  /-- the evaluation broke off without an outcome -/
  | brokeOff
  /-- the steps were used up -/
  | outOfSteps

namespace Run

def map {α β : Type} (f : α → β) : Run α → Run β
  | .ended result => .ended (f result)
  | .brokeOff => .brokeOff
  | .outOfSteps => .outOfSteps

def hasEnded {α : Type} : Run α → Bool
  | .ended _ => true
  | .brokeOff | .outOfSteps => false

theorem eq_ended {α : Type} {run : Run α} (h : run.hasEnded = true) :
    ∃ result, run = .ended result := by
  cases run with
  | ended result => exact ⟨result, rfl⟩
  | brokeOff => cases h
  | outOfSteps => cases h

end Run

namespace Evaluator

/-- A computation that waits for the outcome of a task. -/
abbrev Waiting := Except Abrupt Value → World → Computation Ending

/-- Run a computation and then what waits on the stack, within a number of steps. -/
def run (ev : Evaluator) :
    Nat → Computation Ending → List Waiting → Run (Except Abrupt Value × World)
  | 0, _, _ => .outOfSteps
  | steps + 1, .ask task w resume, stack => run ev steps (ev.carryOut task w) (resume :: stack)
  | steps + 1, .done (.ok (.handOver task)) w, stack => run ev steps (ev.carryOut task w) stack
  | steps + 1, .done (.ok (.value value)) w, next :: stack => run ev steps (next (.ok value) w) stack
  | steps + 1, .done (.error e) w, next :: stack => run ev steps (next (.error e) w) stack
  | _ + 1, .done (.ok (.value value)) w, [] => .ended (.ok value, w)
  | _ + 1, .done (.error e) w, [] => .ended (.error e, w)
  | _ + 1, .brokenOff, _ => .brokeOff

/-- Carry out a task within a number of steps. -/
def perform (ev : Evaluator) (steps : Nat) (task : Task) (w : World) :
    Run (Except Abrupt Value × World) :=
  ev.run steps (ev.carryOut task w) []

/-- More steps than any machine takes in practice. -/
def manySteps : Nat := Nat.pow 2 60

end Evaluator

end ScriptCore

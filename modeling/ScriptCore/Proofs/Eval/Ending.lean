import ScriptCore.Proofs.Eval.Contract
import ScriptCore.Proofs.Eval.Stack

/-!
# How computations end

A run takes a computation apart on a stack. Seen from the computation, all that happens is that each task
it asks for is performed, and that it goes on with what came of that (`Computation.Ends`). So the end of a
computation can be traced back through the steps that it was built of (`Ends.of_andThen`), and the end of
a task to that of its computation (`Evaluator.ends_of_perform`).
-/
namespace ScriptCore

namespace Computation

variable {α β : Type} {ev : Evaluator} {entries : List (Task × World)}

/-- A computation comes to an outcome in a world: it is done, or it asks for a task, which is performed
as one of the given entries, and comes to its outcome from there. -/
inductive Ends (ev : Evaluator) (entries : List (Task × World)) :
    Computation α → Except Abrupt α → World → Prop
  | done (outcome : Except Abrupt α) (w : World) : Ends ev entries (.done outcome w) outcome w
  | ask {task : Task} {w w₁ w' : World} {resume : Except Abrupt Value → World → Computation α}
    {used : Nat} {given : Except Abrupt Value} {outcome : Except Abrupt α} (hmem : (task, w) ∈ entries)
    (hperform : ev.perform used task w = .ended (given, w₁))
    (hrest : Ends ev entries (resume given w₁) outcome w') :
    Ends ev entries (.ask task w resume) outcome w'

variable {c : Computation α}

/-- Two steps in a row: the first one failed, or the second one ended from where it left. -/
theorem Ends.of_andThen {f : α → World → Computation β} {outcome : Except Abrupt β} {w' : World}
    (h : (c.andThen f).Ends ev entries outcome w') :
    (∃ e, c.Ends ev entries (.error e) w' ∧ outcome = .error e) ∨
      ∃ a w, c.Ends ev entries (.ok a) w ∧ (f a w).Ends ev entries outcome w' := by
  induction c with
  | done first w =>
    cases first with
    | ok a => exact Or.inr ⟨a, w, .done _ w, h⟩
    | error e =>
      cases h
      exact Or.inl ⟨e, .done _ _, rfl⟩
  | ask task w resume ih =>
    cases h with
    | ask hmem hperform hrest =>
      obtain ⟨e, hfirst, heq⟩ | ⟨a, w₁, hfirst, hsecond⟩ := ih _ _ hrest
      · exact Or.inl ⟨e, .ask hmem hperform hfirst, heq⟩
      · exact Or.inr ⟨a, w₁, .ask hmem hperform hfirst, hsecond⟩
  | brokenOff => cases h

/-- A caught outcome is the one that the step came to. -/
theorem Ends.of_caught {outcome : Except Abrupt (Except Abrupt α)} {w' : World}
    (h : c.caught.Ends ev entries outcome w') :
    ∃ inner, outcome = .ok inner ∧ c.Ends ev entries inner w' := by
  induction c with
  | done inner w =>
    cases h
    exact ⟨inner, rfl, .done inner _⟩
  | ask task w resume ih =>
    cases h with
    | ask hmem hperform hrest =>
      obtain ⟨inner, heq, hinner⟩ := ih _ _ hrest
      exact ⟨inner, heq, .ask hmem hperform hinner⟩
  | brokenOff => cases h

end Computation

namespace Evaluator

variable {ev : Evaluator}

/-- A run on a deep stack comes first to the end of its upper part, and goes on beneath. -/
theorem run_split {steps : Nat} {c : Computation Ending} {top rest : List Waiting}
    {result : Except Abrupt Value × World} (h : ev.run steps c (top ++ rest) = .ended result) :
    ∃ outcome w more, more ≤ steps ∧ ev.run steps c top = .ended (outcome, w) ∧
      ev.run more (.delivered outcome w) rest = .ended result ∧
      ∀ entry ∈ ev.trace more (.delivered outcome w) rest, entry ∈ ev.trace steps c (top ++ rest) := by
  induction steps generalizing c top with
  | zero => cases h
  | succ steps ih =>
    cases c with
    | ask task w resume =>
      obtain ⟨outcome, w₁, more, hle, htop, hrest, hmem⟩ := @ih (ev.carryOut task w) (resume :: top) h
      exact ⟨outcome, w₁, more, Nat.le_succ_of_le hle, htop, hrest, fun entry hentry =>
        List.mem_cons_of_mem _ (hmem entry hentry)⟩
    | brokenOff => cases h
    | done outcome w =>
      cases outcome with
      | error e =>
        cases top with
        | nil => exact ⟨.error e, w, steps + 1, Nat.le_refl _, rfl, h, fun _ => id⟩
        | cons next top =>
          obtain ⟨outcome, w₁, more, hle, hsplit⟩ := ih h
          exact ⟨outcome, w₁, more, Nat.le_succ_of_le hle, hsplit⟩
      | ok ending =>
        cases ending with
        | handOver task =>
          obtain ⟨outcome, w₁, more, hle, htop, hrest, hmem⟩ := @ih (ev.carryOut task w) top h
          exact ⟨outcome, w₁, more, Nat.le_succ_of_le hle, htop, hrest, fun entry hentry =>
            List.mem_cons_of_mem _ (hmem entry hentry)⟩
        | value value =>
          cases top with
          | nil => exact ⟨.ok value, w, steps + 1, Nat.le_refl _, rfl, h, fun _ => id⟩
          | cons next top =>
            obtain ⟨outcome, w₁, more, hle, hsplit⟩ := ih h
            exact ⟨outcome, w₁, more, Nat.le_succ_of_le hle, hsplit⟩

/-- A task that is asked for is performed, and the run goes on with its outcome. -/
theorem run_ask_ended {steps : Nat} {task : Task} {w : World} {resume : Waiting} {stack : List Waiting}
    {result : Except Abrupt Value × World}
    (h : ev.run steps (.ask task w resume) stack = .ended result) :
    ∃ used given w₁ more, used < steps ∧ more < steps ∧ ev.perform used task w = .ended (given, w₁) ∧
      ev.run more (resume given w₁) stack = .ended result ∧
      ∀ entry, entry = (task, w) ∨ entry ∈ ev.trace more (resume given w₁) stack →
        entry ∈ ev.trace steps (.ask task w resume) stack := by
  cases steps with
  | zero => cases h
  | succ steps =>
    obtain ⟨given, w₁, more, hle, hperform, hrest, hmem⟩ := @run_split ev steps (ev.carryOut task w) []
      (resume :: stack) result h
    cases more with
    | zero => cases hrest
    | succ more =>
      have hresume : ev.run (more + 1) (.delivered given w₁) (resume :: stack) =
          ev.run more (resume given w₁) stack := by cases given <;> rfl
      have htrace : ev.trace (more + 1) (.delivered given w₁) (resume :: stack) =
          ev.trace more (resume given w₁) stack := by cases given <;> rfl
      rw [hresume] at hrest
      rw [htrace] at hmem
      refine ⟨steps, given, w₁, more, by omega, by omega, hperform, hrest, fun entry hentry => ?_⟩
      obtain rfl | hentry := hentry
      · exact List.mem_cons_self
      · exact List.mem_cons_of_mem _ (hmem entry hentry)

/-- What a run from a computation comes to, from the end of the computation on: the outcome itself, or
that of the task it hands over to. -/
def Concludes (ev : Evaluator) (ending : Except Abrupt Ending) (w : World)
    (result : Except Abrupt Value × World) : Prop :=
  match ending with
  | .ok (.value value) => result = (.ok value, w)
  | .ok (.handOver task) => ∃ used, ev.perform used task w = .ended result
  | .error e => result = (.error e, w)

/-- **A run ends as its computation does.** -/
theorem ends_of_run {steps : Nat} {c : Computation Ending} {result : Except Abrupt Value × World}
    {entries : List (Task × World)} (h : ev.run steps c [] = .ended result)
    (hentries : ∀ entry ∈ ev.trace steps c [], entry ∈ entries) :
    ∃ ending w, c.Ends ev entries ending w ∧ ev.Concludes ending w result := by
  induction c generalizing steps with
  | brokenOff => cases steps <;> cases h
  | ask task w resume ih =>
    obtain ⟨used, given, w₁, more, -, -, hperform, hrest, hmem⟩ := run_ask_ended h
    obtain ⟨ending, w₂, hends, hconcludes⟩ := ih given w₁ hrest fun entry hentry =>
      hentries entry (hmem entry (Or.inr hentry))
    exact ⟨ending, w₂, .ask (hentries _ (hmem _ (Or.inl rfl))) hperform hends, hconcludes⟩
  | done ending w =>
    refine ⟨ending, w, .done ending w, ?_⟩
    cases steps with
    | zero => cases h
    | succ steps =>
      cases ending with
      | error e =>
        cases h
        rfl
      | ok ending =>
        cases ending with
        | value value =>
          cases h
          rfl
        | handOver task => exact ⟨steps, h⟩

/-- A task that ends with a value of a step ends as the step does, and what the step asked for was
performed on the way. -/
theorem ends_of_perform {α : Type} {steps : Nat} {task : Task} {w w' : World} {m : Eval α}
    {f : α → Value} {outcome : Except Abrupt Value}
    (hcarry : ev.carryOut task w = (m w).andThen fun a w => .done (.ok (.value (f a))) w)
    (h : ev.perform steps task w = .ended (outcome, w')) :
    ∃ result, (m w).Ends ev (ev.performed steps task w) result w' ∧ outcome = result.map f := by
  have hmem : ∀ entry ∈ ev.trace steps (ev.carryOut task w) [], entry ∈ ev.performed steps task w :=
    fun entry hentry => List.mem_cons_of_mem _ hentry
  obtain ⟨ending, w₁, hends, hconcludes⟩ := ends_of_run h hmem
  rw [hcarry] at hends
  obtain ⟨e, hfirst, rfl⟩ | ⟨a, w₂, hfirst, hsecond⟩ := hends.of_andThen
  · cases hconcludes
    exact ⟨.error e, hfirst, rfl⟩
  · cases hsecond
    cases hconcludes
    exact ⟨.ok a, hfirst, rfl⟩

end Evaluator

end ScriptCore

import ScriptCore.Eval.Machine

/-!
# Contracts of tasks

While the machine runs, computations wait for one another on a stack. A contract says what can be
relied on all the same: an invariant of worlds, what holds of a task when it is asked for, and what its
outcome satisfies. Whether a computation meets a contract is seen from the computation alone
(`Computation.Meets`, and `Eval.Keeps` with one rule for each way to build a step of the evaluator). If
every task meets it, then so does every run: of the outcome (`Contract.run_ended`) and of each task that
is carried out on the way (`Contract.mem_trace`).
-/
namespace ScriptCore

/-- An invariant of worlds, what holds of a task that is asked for, and what its outcome satisfies. -/
structure Contract where
  inv : World → Prop
  asks : Task → Prop
  gives : Task → Except Abrupt Value → Prop

namespace Computation

variable {α β : Type}

/-- A computation meets a contract and ends as `post` says, whatever the tasks it asks for come to
within the contract. A computation that breaks off has no end. -/
def Meets (k : Contract) (post : Except Abrupt α → World → Prop) : Computation α → Prop
  | .done outcome w => post outcome w
  | .ask task w resume => k.inv w ∧ k.asks task ∧
      ∀ outcome w', k.inv w' → k.gives task outcome → (resume outcome w').Meets k post
  | .brokenOff => True

variable {k : Contract} {c : Computation α}

theorem Meets.mono {p q : Except Abrupt α → World → Prop} (h : c.Meets k p)
    (hpq : ∀ outcome w, p outcome w → q outcome w) : c.Meets k q := by
  induction c with
  | done outcome w => exact hpq outcome w h
  | ask task w resume ih =>
    obtain ⟨hinv, hasks, hresume⟩ := h
    exact ⟨hinv, hasks, fun outcome w' hw' hgives => ih outcome w' (hresume outcome w' hw' hgives)⟩
  | brokenOff => trivial

/-- Several ends that hold one by one hold together. -/
theorem Meets.all {ι : Type} [Nonempty ι] {p : ι → Except Abrupt α → World → Prop}
    (h : ∀ i, c.Meets k (p i)) : c.Meets k fun outcome w => ∀ i, p i outcome w := by
  induction c with
  | done outcome w => exact h
  | ask task w resume ih =>
    obtain ⟨i⟩ := ‹Nonempty ι›
    obtain ⟨hinv, hasks, -⟩ := h i
    exact ⟨hinv, hasks, fun outcome w' hw' hgives =>
      ih outcome w' fun i => (h i).2.2 outcome w' hw' hgives⟩
  | brokenOff => trivial

theorem Meets.andThen {f : α → World → Computation β} {q : Except Abrupt β → World → Prop}
    (h : c.Meets k fun outcome w =>
      match outcome with
      | .ok a => (f a w).Meets k q
      | .error e => q (.error e) w) : (c.andThen f).Meets k q := by
  induction c with
  | done outcome w => cases outcome <;> exact h
  | ask task w resume ih =>
    obtain ⟨hinv, hasks, hresume⟩ := h
    exact ⟨hinv, hasks, fun outcome w' hw' hgives => ih outcome w' (hresume outcome w' hw' hgives)⟩
  | brokenOff => trivial

theorem Meets.caught {q : Except Abrupt (Except Abrupt α) → World → Prop}
    (h : c.Meets k fun outcome w => q (.ok outcome) w) : c.caught.Meets k q := by
  induction c with
  | done outcome w => exact h
  | ask task w resume ih =>
    obtain ⟨hinv, hasks, hresume⟩ := h
    exact ⟨hinv, hasks, fun outcome w' hw' hgives => ih outcome w' (hresume outcome w' hw' hgives)⟩
  | brokenOff => trivial

theorem Meets.raisedAt {node : NodeId} {q : Except Abrupt α → World → Prop}
    (h : c.Meets k fun outcome w => q (outcome.mapError fun e => e.raisedAt node) w) :
    (c.raisedAt node).Meets k q := by
  induction c with
  | done outcome w => cases outcome <;> exact h
  | ask task w resume ih =>
    obtain ⟨hinv, hasks, hresume⟩ := h
    exact ⟨hinv, hasks, fun outcome w' hw' hgives => ih outcome w' (hresume outcome w' hw' hgives)⟩
  | brokenOff => trivial

end Computation

namespace Contract

variable {α : Type} (k : Contract)

/-- An end within the invariant: a value that satisfies `ok`, or an abrupt end that satisfies
`abrupt`. -/
def Ends (ok : α → Prop) (abrupt : Abrupt → Prop) : Except Abrupt α → World → Prop
  | .ok a, w => k.inv w ∧ ok a
  | .error e, w => k.inv w ∧ abrupt e

end Contract

namespace Eval

variable {α β : Type} {k : Contract} {ok : α → Prop} {abrupt : Abrupt → Prop}

/-- From every world within the invariant, a step meets the contract and ends with a value that
satisfies `ok` or an abrupt end that satisfies `abrupt`. -/
def Keeps (k : Contract) (ok : α → Prop) (abrupt : Abrupt → Prop) (m : Eval α) : Prop :=
  ∀ w, k.inv w → (m w).Meets k (k.Ends ok abrupt)

theorem Keeps.mono {ok' : α → Prop} {abrupt' : Abrupt → Prop} {m : Eval α}
    (h : Keeps k ok abrupt m) (hok : ∀ a, ok a → ok' a) (habrupt : ∀ e, abrupt e → abrupt' e) :
    Keeps k ok' abrupt' m := fun w hw =>
  (h w hw).mono fun
    | .ok a, _, ⟨hw', ha⟩ => ⟨hw', hok a ha⟩
    | .error e, _, ⟨hw', he⟩ => ⟨hw', habrupt e he⟩

theorem keeps_pure {a : α} (h : ok a) : Keeps k ok abrupt (pure a) := fun _ hw => ⟨hw, h⟩

theorem keeps_abrupt {e : Abrupt} (h : abrupt e) : Keeps k ok abrupt (Eval.abrupt e) :=
  fun _ hw => ⟨hw, h⟩

theorem keeps_fail {cause : Cause} (h : abrupt (.of cause)) : Keeps k ok abrupt (fail cause) :=
  keeps_abrupt h

theorem Keeps.bind {mid : β → Prop} {m : Eval β} {f : β → Eval α} (hm : Keeps k mid abrupt m)
    (hf : ∀ b, mid b → Keeps k ok abrupt (f b)) : Keeps k ok abrupt (m >>= f) := fun w hw =>
  .andThen ((hm w hw).mono fun
    | .ok b, w', ⟨hw', hb⟩ => hf b hb w' hw'
    | .error _, _, he => he)

theorem Keeps.map {mid : β → Prop} {m : Eval β} {f : β → α} (hm : Keeps k mid abrupt m)
    (hf : ∀ b, mid b → ok (f b)) : Keeps k ok abrupt (f <$> m) :=
  hm.bind fun b hb => keeps_pure (hf b hb)

theorem keeps_reads {f : World → α} (h : ∀ w, k.inv w → ok (f w)) : Keeps k ok abrupt (reads f) :=
  fun w hw => ⟨hw, h w hw⟩

theorem keeps_checks {f : World → Except Cause α} (hok : ∀ w a, f w = .ok a → ok a)
    (herror : ∀ w cause, f w = .error cause → abrupt (.of cause)) :
    Keeps k ok abrupt (checks f) := by
  intro w hw
  rw [checks]
  split
  next a ha => exact ⟨hw, hok w a ha⟩
  next cause hcause => exact ⟨hw, herror w cause hcause⟩

theorem keeps_modifies {ok : Unit → Prop} {f : World → World} (hf : ∀ w, k.inv w → k.inv (f w))
    (h : ok ()) : Keeps k ok abrupt (modifies f) := fun w hw => ⟨hf w hw, h⟩

theorem keeps_makes {f : World → α × World} (h : ∀ w, k.inv w → k.inv (f w).2 ∧ ok (f w).1) :
    Keeps k ok abrupt (makes f) := fun w hw => h w hw

theorem keeps_attempts {f : World → Except Cause α × World}
    (hinv : ∀ w, k.inv w → k.inv (f w).2) (hok : ∀ w a, (f w).1 = .ok a → ok a)
    (herror : ∀ w cause, (f w).1 = .error cause → abrupt (.of cause)) :
    Keeps k ok abrupt (attempts f) := by
  intro w hw
  have hw' := hinv w hw
  rw [attempts]
  split
  next a w' h => rw [h] at hw'; exact ⟨hw', hok w a (by rw [h])⟩
  next cause w' h => rw [h] at hw'; exact ⟨hw', herror w cause (by rw [h])⟩

theorem keeps_risks {f : World → Option (Except Cause α × World)}
    (hinv : ∀ w r, k.inv w → f w = some r → k.inv r.2)
    (hok : ∀ w a w', f w = some (.ok a, w') → ok a)
    (herror : ∀ w cause w', f w = some (.error cause, w') → abrupt (.of cause)) :
    Keeps k ok abrupt (risks f) := by
  intro w hw
  rw [risks]
  split
  next a w' h => exact ⟨hinv w _ hw h, hok w a w' h⟩
  next cause w' h => exact ⟨hinv w _ hw h, herror w cause w' h⟩
  · trivial

theorem Keeps.catching {ends : Abrupt → Prop} {m : Eval α} (hm : Keeps k ok ends m) :
    Keeps k (fun | .ok a => ok a | .error e => ends e) abrupt m.catching := fun w hw =>
  .caught ((hm w hw).mono fun
    | .ok _, _, h => h
    | .error _, _, h => h)

theorem Keeps.raisedAt {node : NodeId} {m : Eval α} (hm : Keeps k ok abrupt m)
    (h : ∀ e, abrupt e → abrupt (e.raisedAt node)) : Keeps k ok abrupt (m.raisedAt node) :=
  fun w hw => .raisedAt ((hm w hw).mono fun
    | .ok _, _, ha => ha
    | .error e, _, ⟨hw', he⟩ => ⟨hw', h e he⟩)

/-- Asking for a task takes that the task is in order, and gives what its outcome satisfies. -/
theorem keeps_ask {task : Task} {ok : Value → Prop} (hasks : k.asks task)
    (hok : ∀ value, k.gives task (.ok value) → ok value)
    (herror : ∀ e, k.gives task (.error e) → abrupt e) : Keeps k ok abrupt (ask task) :=
  fun _ hw => ⟨hw, hasks, fun
    | .ok value, _, hw', h => ⟨hw', hok value h⟩
    | .error e, _, hw', h => ⟨hw', herror e h⟩⟩

end Eval

/-! ## Runs -/

namespace Evaluator

/-- The tasks that a run carries out within a number of steps, in order and each with the world that it
starts in. The steps are those of `Evaluator.run`. -/
def trace (ev : Evaluator) : Nat → Computation Ending → List Waiting → List (Task × World)
  | 0, _, _ => []
  | steps + 1, .ask task w resume, stack =>
    (task, w) :: trace ev steps (ev.carryOut task w) (resume :: stack)
  | steps + 1, .done (.ok (.handOver task)) w, stack =>
    (task, w) :: trace ev steps (ev.carryOut task w) stack
  | steps + 1, .done (.ok (.value value)) w, next :: stack =>
    trace ev steps (next (.ok value) w) stack
  | steps + 1, .done (.error e) w, next :: stack => trace ev steps (next (.error e) w) stack
  | _ + 1, _, _ => []

/-- The tasks carried out while a task is performed, itself included. -/
def performed (ev : Evaluator) (steps : Nat) (task : Task) (w : World) : List (Task × World) :=
  (task, w) :: ev.trace steps (ev.carryOut task w) []

end Evaluator

namespace Contract

variable (k : Contract)

/-- How a task may end: with an outcome that satisfies the goal, or by handing over to a task whose
outcome will. -/
def Settles (goal : Except Abrupt Value → Prop) : Except Abrupt Ending → World → Prop
  | .ok (.value value), w => k.inv w ∧ goal (.ok value)
  | .ok (.handOver task), w => k.inv w ∧ k.asks task ∧ ∀ outcome, k.gives task outcome → goal outcome
  | .error e, w => k.inv w ∧ goal (.error e)

/-- How a step may end a task: with a value that satisfies the goal, or by handing over. -/
def Hands (goal : Except Abrupt Value → Prop) : Ending → Prop
  | .value value => goal (.ok value)
  | .handOver task => k.asks task ∧ ∀ outcome, k.gives task outcome → goal outcome

variable {k} in
/-- A step that ends a task within the contract settles it. -/
theorem settles {goal : Except Abrupt Value → Prop} {m : Eval Ending}
    (h : m.Keeps k (k.Hands goal) fun e => goal (.error e)) {w : World} (hw : k.inv w) :
    (m w).Meets k (k.Settles goal) :=
  (h w hw).mono fun
    | .ok (.value _), _, h => h
    | .ok (.handOver _), _, h => h
    | .error _, _, h => h

/-- Every task that is in order meets the contract when an evaluator carries it out. -/
def KeptBy (ev : Evaluator) : Prop :=
  ∀ task w, k.asks task → k.inv w → (ev.carryOut task w).Meets k (k.Settles (k.gives task))

/-- What waits on a stack: each computation goes on from an outcome that satisfies its goal, and the
last one comes to `final`. -/
def Awaits : List Evaluator.Waiting → (goal final : Except Abrupt Value → Prop) → Prop
  | [], goal, final => ∀ outcome, goal outcome → final outcome
  | next :: rest, goal, final => ∃ goal', Awaits rest goal' final ∧
      ∀ outcome w, k.inv w → goal outcome → (next outcome w).Meets k (k.Settles goal')

variable {k} {ev : Evaluator} {goal final : Except Abrupt Value → Prop}

/-- Under the waiting computations, a weaker goal is enough. -/
theorem Awaits.mono {stack : List Evaluator.Waiting} {goal' : Except Abrupt Value → Prop}
    (h : k.Awaits stack goal final) (hgoal : ∀ outcome, goal' outcome → goal outcome) :
    k.Awaits stack goal' final := by
  cases stack with
  | nil => exact fun outcome ho => h outcome (hgoal outcome ho)
  | cons next rest =>
    obtain ⟨mid, hrest, hnext⟩ := h
    exact ⟨mid, hrest, fun outcome w hw ho => hnext outcome w hw (hgoal outcome ho)⟩

/-- A run from a computation that meets the contract ends within it. -/
theorem run_ended (hk : k.KeptBy ev) (steps : Nat) (c : Computation Ending)
    (stack : List Evaluator.Waiting) (hc : c.Meets k (k.Settles goal))
    (hstack : k.Awaits stack goal final) {outcome : Except Abrupt Value} {w : World}
    (hrun : ev.run steps c stack = .ended (outcome, w)) : k.inv w ∧ final outcome := by
  fun_induction Evaluator.run ev steps c stack generalizing goal with
  | case1 => cases hrun
  | case2 steps task w₀ resume stack ih =>
    obtain ⟨hinv, hasks, hresume⟩ := hc
    exact ih (hk task w₀ hasks hinv) ⟨goal, hstack, hresume⟩ hrun
  | case3 steps task w₀ stack ih =>
    obtain ⟨hinv, hasks, hgives⟩ := hc
    exact ih (hk task w₀ hasks hinv) (hstack.mono hgives) hrun
  | case4 steps value w₀ next stack ih =>
    obtain ⟨goal', hrest, hnext⟩ := hstack
    exact ih (hnext (.ok value) w₀ hc.1 hc.2) hrest hrun
  | case5 steps e w₀ next stack ih =>
    obtain ⟨goal', hrest, hnext⟩ := hstack
    exact ih (hnext (.error e) w₀ hc.1 hc.2) hrest hrun
  | case6 steps value w₀ =>
    cases hrun
    exact ⟨hc.1, hstack _ hc.2⟩
  | case7 steps e w₀ =>
    cases hrun
    exact ⟨hc.1, hstack _ hc.2⟩
  | case8 => cases hrun

/-- Every task that such a run carries out is in order, and starts within the invariant. -/
theorem mem_trace (hk : k.KeptBy ev) (steps : Nat) (c : Computation Ending)
    (stack : List Evaluator.Waiting) (hc : c.Meets k (k.Settles goal))
    (hstack : k.Awaits stack goal final) {task : Task} {w : World}
    (hmem : (task, w) ∈ ev.trace steps c stack) : k.inv w ∧ k.asks task := by
  fun_induction Evaluator.trace ev steps c stack generalizing goal with
  | case1 => cases hmem
  | case2 steps asked w₀ resume stack ih =>
    obtain ⟨hinv, hasks, hresume⟩ := hc
    cases hmem with
    | head => exact ⟨hinv, hasks⟩
    | tail _ hmem => exact ih (hk asked w₀ hasks hinv) ⟨goal, hstack, hresume⟩ hmem
  | case3 steps next w₀ stack ih =>
    obtain ⟨hinv, hasks, hgives⟩ := hc
    cases hmem with
    | head => exact ⟨hinv, hasks⟩
    | tail _ hmem => exact ih (hk next w₀ hasks hinv) (hstack.mono hgives) hmem
  | case4 steps value w₀ next stack ih =>
    obtain ⟨goal', hrest, hnext⟩ := hstack
    exact ih (hnext (.ok value) w₀ hc.1 hc.2) hrest hmem
  | case5 steps e w₀ next stack ih =>
    obtain ⟨goal', hrest, hnext⟩ := hstack
    exact ih (hnext (.error e) w₀ hc.1 hc.2) hrest hmem
  | case6 => cases hmem

/-- A task in order comes to an outcome that satisfies what the contract gives for it. -/
theorem perform_ended (hk : k.KeptBy ev) {steps : Nat} {task : Task} {w w' : World}
    {outcome : Except Abrupt Value} (hw : k.inv w) (htask : k.asks task)
    (hrun : ev.perform steps task w = .ended (outcome, w')) : k.inv w' ∧ k.gives task outcome :=
  run_ended hk steps _ [] (hk task w htask hw) (fun _ h => h) hrun

/-- Under a task in order, every task that is carried out is in order. -/
theorem mem_performed (hk : k.KeptBy ev) {steps : Nat} {start task : Task} {w w' : World}
    (hw : k.inv w) (hstart : k.asks start) (hmem : (task, w') ∈ ev.performed steps start w) :
    k.inv w' ∧ k.asks task := by
  cases hmem with
  | head => exact ⟨hw, hstart⟩
  | tail _ hmem =>
    exact mem_trace hk steps _ [] (hk start w hstart hw) (fun _ (h : k.gives start _) => h) hmem

end Contract

end ScriptCore

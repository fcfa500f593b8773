import ScriptCore.Proofs.Eval.Follow
import ScriptCore.Proofs.Eval.Safety

/-!
# Limits

Limits are transparent until they fire: a run that no limit stops is the same run under wider limits. And
nothing in a program without finalizers notices a failure: whatever task fails, the whole evaluation ends
in that failure, in the world that the task left behind.
-/
namespace ScriptCore

open ScriptCore.Computation

/-- No `try` of the tree has a finalizer. -/
def Tree.NoFinalizer (t : Tree) : Prop :=
  ∀ n, t.tag n = "TryStatement" → t.child? n "finalizer" = none

/-- Limits that are at least as wide. -/
structure Limits.Within (narrow wide : Limits) : Prop where
  depth : narrow.maxCallDepth ≤ wide.maxCallDepth
  length : narrow.maxArrayLength ≤ wide.maxArrayLength

theorem Limits.Within.refl (limits : Limits) : limits.Within limits :=
  ⟨Nat.le_refl _, Nat.le_refl _⟩

namespace Evaluator

variable {ev : Evaluator} {limits : Limits} {t : Tree}

/-- A task may hand over to another one in the tree. -/
def HandsWithin (t : Tree) : Ending → Prop
  | .value _ => True
  | .handOver task => task.WithinTree t

/-! ## Tasks -/

/-- Without finalizers no rule goes on after a failure. -/
theorem not_recovers {a : Activation} (hfinal : a.tree.NoFinalizer) (n : NodeId) (s : ScopeId) :
    ¬ (Site.ofNode (ev.context a) limits a.links n s).recovers := by
  rintro ⟨htag, hsome⟩
  have hnone : (ev.context a).tree.child? n "finalizer" = none := hfinal n htag
  rw [hnone] at hsome
  cases hsome

theorem follows_evalNode (hrules : ev.rules = RuleTable.default) (hlimits : ev.limits.Within limits)
    (a : Activation) (hfinal : a.tree.NoFinalizer) (n : NodeId) (s : ScopeId) :
    Eval.Follows a.tree (fun _ => True) (ev.evalNode a n s)
      (({ ev with limits } : Evaluator).evalNode a n s) := by
  have hdoes := does_evalNode (S := fun t => t = s) hrules limits a.links a n rfl
  have haimed := Site.aimed_ofNode (ev.context a) limits a.links n s
  exact Eval.follows_of_does rfl haimed hlimits.length (not_recovers hfinal n s) hdoes

theorem follows_callClosure (hlimits : ev.limits.Within limits) {closure : Closure}
    (hmade : closure.MadeOf t) (depth : Nat) (id : ClosureId) (receiver : Value) (args : List Value) :
    Eval.Follows t (fun _ => True) (ev.callClosure depth id closure receiver args)
      (({ ev with limits } : Evaluator).callClosure depth id closure receiver args) := by
  intro w hw
  by_cases hdepth : depth < ev.limits.maxCallDepth
  · have hdepth' : depth < ({ ev with limits } : Evaluator).limits.maxCallDepth :=
      Nat.lt_of_lt_of_le hdepth hlimits.depth
    rw [callClosure_of_lt ev hdepth, callClosure_of_lt _ hdepth']
    obtain rfl := hmade.tree_eq
    let entry := ev.entered id closure receiver args w
    let c := ev.context ⟨closure.tree, entry.links, depth + 1⟩
    have hdoes := does_body (S := fun s => s = entry.scope) c limits c.links closure rfl args
    have haimed := Site.aimed_ofCall (c := c) limits c.links hmade entry.scope
    have hfollows := Eval.follows_of_does rfl haimed hlimits.length (fun h => h) hdoes
    exact hfollows _ (hw.of_closures (ev.entered_closures id closure receiver args w))
  · rw [callClosure_of_le ev (Nat.le_of_not_lt hdepth)]
    exact Or.inl rfl

theorem follows_callValue (hhost : ev.host.MakesNoClosures) (hlimits : ev.limits.Within limits)
    (depth : Nat) (callee receiver : Value) (args : List Value) :
    Eval.Follows t (fun _ => True) (ev.callValue depth callee receiver args)
      (({ ev with limits } : Evaluator).callValue depth callee receiver args) := by
  intro w hw
  cases callee with
  | closure id =>
    cases hclosure : w.closure? id with
    | some closure =>
      rw [callValue_of_some ev hclosure, callValue_of_some _ hclosure]
      exact follows_callClosure hlimits (hw id closure hclosure) depth id receiver args w hw
    | none =>
      rw [callValue_of_none ev hclosure, callValue_of_none _ hclosure]
      exact Or.inr ⟨hw, rfl⟩
  | native name =>
    have hsame : ({ ev with limits } : Evaluator).callValue depth (.native name) receiver args w =
        ev.callNative name receiver args w := rfl
    have hcall : ev.callValue depth (.native name) receiver args w =
        ev.callNative name receiver args w := rfl
    rw [hsame, hcall, callNative]
    split
    next native hnative =>
      have hclosures := hw.of_closures (hhost name native hnative receiver args w)
      split
      next value w' h => exact ⟨by rw [h] at hclosures; exact hclosures, trivial, rfl⟩
      next error w' h => exact Or.inr ⟨by rw [h] at hclosures; exact hclosures, rfl⟩
    · exact Or.inr ⟨hw, rfl⟩
  | _ => exact Or.inr ⟨hw, rfl⟩

/-- Every task in the tree follows under wider limits. -/
theorem follows_carryOut (hrules : ev.rules = RuleTable.default) (hhost : ev.host.MakesNoClosures)
    (hfinal : t.NoFinalizer) (hlimits : ev.limits.Within limits) {task : Task}
    (htask : task.WithinTree t) : Eval.Follows t (HandsWithin t) (ev.carryOut task)
      (({ ev with limits } : Evaluator).carryOut task) := by
  intro w hw
  cases task with
  | eval a n s =>
    obtain rfl : a.tree = t := htask
    exact (follows_evalNode hrules hlimits a hfinal n s w hw).andThen fun _ _ _ hw' =>
      ⟨hw', trivial, rfl⟩
  | bind a pattern value s binding =>
    obtain ⟨rfl, htarget⟩ := htask
    have hdoes := Site.does_bindPattern (S := fun u => u = s) (ev.context a) limits a.links pattern rfl value
      binding
    have haimed := Site.aimed_ofPattern (ev.context a) limits a.links s binding htarget
    have hfollows := Eval.follows_of_does rfl haimed hlimits.length (fun h => h) hdoes w hw
    exact hfollows.andThen fun _ _ _ hw' => ⟨hw', trivial, rfl⟩
  | call depth callee receiver args =>
    exact (follows_callValue hhost hlimits depth callee receiver args w hw).andThen fun _ _ _ hw' =>
      ⟨hw', trivial, rfl⟩
  | loop a rounds s testFirst =>
    obtain rfl : a.tree = t := htask
    have hdoes := does_round (S := fun u => u = s) ev limits a rounds rfl testFirst
    have haimed := Site.aimed_ofLoop (ev.context a) limits a.links rounds
    have hfollows := Eval.follows_of_does rfl haimed hlimits.length (fun h => h) hdoes w hw
    refine hfollows.mono fun ending hending => ?_
    cases ending with
    | value value => trivial
    | handOver task =>
      obtain rfl : task = .loop a rounds s true := hending
      exact rfl

/-! ## Runs -/

/-- What waits on two stacks goes on in the same way, and hands failures on. -/
def Alike (t : Tree) : List Waiting → List Waiting → Prop :=
  List.Forall₂ fun next next' => PassesFailures next ∧
    ∀ outcome w, w.ClosuresOf t → (next outcome w).Follows t (HandsWithin t) (next' outcome w)

/-- A failure ends a run on a stack that hands failures on. -/
theorem run_failure {steps : Nat} {e : EvalError} {w : World} {stack : List Waiting}
    (hstack : ∀ next ∈ stack, PassesFailures next) (hsteps : stack.length < steps) :
    ∃ e', e'.cause = e.cause ∧
      ev.run steps (.done (.error (.failure e)) w) stack = .ended (.error (.failure e'), w) := by
  induction stack generalizing steps e with
  | nil =>
    obtain ⟨steps, rfl⟩ := Nat.exists_eq_succ_of_ne_zero (Nat.ne_of_gt hsteps)
    exact ⟨e, rfl, rfl⟩
  | cons next rest ih =>
    obtain ⟨steps, rfl⟩ := Nat.exists_eq_succ_of_ne_zero (Nat.ne_of_gt (Nat.zero_lt_of_lt hsteps))
    obtain ⟨e₁, hcause, heq⟩ := hstack next List.mem_cons_self e w
    obtain ⟨e', hcause', hrun⟩ := @ih steps e₁
      (fun other hother => hstack other (List.mem_cons_of_mem _ hother)) (Nat.lt_of_succ_lt_succ hsteps)
    refine ⟨e', hcause'.trans hcause, ?_⟩
    rw [run, heq]
    exact hrun

/-- A run that starts with a failure comes to nothing else than that failure. -/
theorem run_failure_ended {steps : Nat} {e : EvalError} {w w' : World} {stack : List Waiting}
    {outcome : Except Abrupt Value} (hstack : ∀ next ∈ stack, PassesFailures next)
    (hrun : ev.run steps (.done (.error (.failure e)) w) stack = .ended (outcome, w')) :
    ∃ e', e'.cause = e.cause ∧ outcome = .error (.failure e') := by
  induction stack generalizing steps e with
  | nil =>
    cases steps with
    | zero => cases hrun
    | succ steps =>
      cases hrun
      exact ⟨e, rfl, rfl⟩
  | cons next rest ih =>
    cases steps with
    | zero => cases hrun
    | succ steps =>
      obtain ⟨e₁, hcause, heq⟩ := hstack next List.mem_cons_self e w
      rw [run, heq] at hrun
      obtain ⟨e', hcause', houtcome⟩ :=
        ih (fun other hother => hstack other (List.mem_cons_of_mem _ hother)) hrun
      exact ⟨e', hcause'.trans hcause, houtcome⟩

/-- After a failure no more tasks are carried out. -/
theorem trace_failure {steps : Nat} {e : EvalError} {w : World} {stack : List Waiting}
    (hstack : ∀ next ∈ stack, PassesFailures next) :
    ev.trace steps (.done (.error (.failure e)) w) stack = [] := by
  induction stack generalizing steps e with
  | nil => cases steps <;> rfl
  | cons next rest ih =>
    cases steps with
    | zero => rfl
    | succ steps =>
      obtain ⟨e', -, heq⟩ := hstack next List.mem_cons_self e w
      rw [trace, heq]
      exact ih fun other hother => hstack other (List.mem_cons_of_mem _ hother)

theorem Alike.passes {stack stack' : List Waiting} (h : Alike t stack stack') :
    ∀ next ∈ stack, PassesFailures next := by
  intro next hnext
  induction h with
  | nil => cases hnext
  | cons hfirst _ ih =>
    cases hnext with
    | head => exact hfirst.1
    | tail _ hnext => exact ih hnext

/-- A run comes to carry out a task, on a stack that hands failures on. -/
def ComesTo (ev : Evaluator) (c : Computation Ending) (stack : List Waiting) (task : Task) (w : World) :
    Prop :=
  ∃ used beneath, (∀ next ∈ beneath, PassesFailures next) ∧
    ∀ more, ev.run (used + more) c stack = ev.run more (ev.carryOut task w) beneath

theorem comesTo_next {c : Computation Ending} {stack beneath : List Waiting} {task : Task} {w : World}
    (hbeneath : ∀ next ∈ beneath, PassesFailures next)
    (hstep : ∀ more, ev.run (more + 1) c stack = ev.run more (ev.carryOut task w) beneath) :
    ev.ComesTo c stack task w :=
  ⟨1, beneath, hbeneath, fun more => by rw [Nat.add_comm, hstep]⟩

theorem ComesTo.after_step {c c' : Computation Ending} {stack stack' : List Waiting} {task : Task}
    {w : World} (h : ev.ComesTo c' stack' task w)
    (hstep : ∀ more, ev.run (more + 1) c stack = ev.run more c' stack') :
    ev.ComesTo c stack task w := by
  obtain ⟨used, beneath, hbeneath, hused⟩ := h
  exact ⟨used + 1, beneath, hbeneath, fun more => by rw [Nat.add_right_comm, hstep, hused]⟩

variable (hrules : ev.rules = RuleTable.default) (hhost : ev.host.MakesNoClosures)
  (hfinal : t.NoFinalizer) (hlimits : ev.limits.Within limits)
include hrules hhost hfinal hlimits

/-- A run that no limit stops goes in the same way under wider limits. -/
theorem run_follows {steps : Nat} {c c' : Computation Ending} {stack stack' : List Waiting}
    (hc : c.Follows t (HandsWithin t) c') (hstack : Alike t stack stack') {outcome : Except Abrupt Value}
    {w : World} (hrun : ev.run steps c stack = .ended (outcome, w)) :
    (∃ e, outcome = .error e ∧ e.HitsLimit) ∨
      ({ ev with limits } : Evaluator).run steps c' stack' = .ended (outcome, w) := by
  fun_induction Evaluator.run ev steps c stack generalizing c' stack' with
  | case1 => cases hrun
  | case2 steps task w₀ resume stack ih =>
    obtain ⟨hw, htask, hpass, resume', rfl, hresume⟩ := hc
    exact ih (follows_carryOut hrules hhost hfinal hlimits htask w₀ hw) (.cons ⟨hpass, hresume⟩ hstack)
      hrun
  | case3 steps task w₀ stack ih =>
    obtain ⟨hw, htask, rfl⟩ := hc
    exact ih (follows_carryOut hrules hhost hfinal hlimits htask w₀ hw) hstack hrun
  | case4 steps value w₀ next stack ih =>
    obtain ⟨hw, -, rfl⟩ := hc
    cases hstack with
    | cons hnext hrest => exact ih (hnext.2 (.ok value) w₀ hw) hrest hrun
  | case5 steps e w₀ next stack ih =>
    cases hc with
    | inl hlimit =>
      cases e with
      | failure e =>
        left
        have hstart : ev.run (steps + 1) (.done (.error (.failure e)) w₀) (next :: stack) =
            .ended (outcome, w) := hrun
        obtain ⟨e', hcause, houtcome⟩ := run_failure_ended hstack.passes hstart
        refine ⟨.failure e', houtcome, ?_⟩
        rw [Abrupt.HitsLimit, hcause]
        exact hlimit
      | _ => cases hlimit
    | inr h =>
      obtain ⟨hw, rfl⟩ := h
      cases hstack with
      | cons hnext hrest => exact ih (hnext.2 (.error e) w₀ hw) hrest hrun
  | case6 steps value w₀ =>
    obtain ⟨hw, -, rfl⟩ := hc
    cases hstack
    cases hrun
    exact Or.inr rfl
  | case7 steps e w₀ =>
    cases hrun
    cases hc with
    | inl hlimit => exact Or.inl ⟨e, rfl, hlimit⟩
    | inr h =>
      obtain ⟨hw, rfl⟩ := h
      cases hstack
      exact Or.inr rfl
  | case8 => cases hrun

omit hlimits

/-- Each task of a run is in the tree, and the run comes to carry it out. -/
theorem comesTo_of_mem_trace {steps : Nat} {c c' : Computation Ending} {stack stack' : List Waiting}
    (hc : c.Follows t (HandsWithin t) c') (hstack : Alike t stack stack') {task : Task} {w : World}
    (hmem : (task, w) ∈ ev.trace steps c stack) : task.WithinTree t ∧ ev.ComesTo c stack task w := by
  have hfollows {task : Task} {w : World} (htask : task.WithinTree t) (hw : w.ClosuresOf t) :
      (ev.carryOut task w).Follows t (HandsWithin t) (ev.carryOut task w) :=
    follows_carryOut hrules hhost hfinal (.refl ev.limits) htask w hw
  fun_induction Evaluator.trace ev steps c stack generalizing c' stack' with
  | case1 => cases hmem
  | case2 steps asked w₀ resume stack ih =>
    obtain ⟨hw, htask, hpass, resume', rfl, hresume⟩ := hc
    have hdeeper : Alike t (resume :: stack) (resume' :: stack') := .cons ⟨hpass, hresume⟩ hstack
    cases hmem with
    | head => exact ⟨htask, comesTo_next hdeeper.passes fun _ => rfl⟩
    | tail _ hmem =>
      obtain ⟨hin, hcomes⟩ := ih (hfollows htask hw) hdeeper hmem
      exact ⟨hin, hcomes.after_step fun _ => rfl⟩
  | case3 steps next w₀ stack ih =>
    obtain ⟨hw, htask, rfl⟩ := hc
    cases hmem with
    | head => exact ⟨htask, comesTo_next hstack.passes fun _ => rfl⟩
    | tail _ hmem =>
      obtain ⟨hin, hcomes⟩ := ih (hfollows htask hw) hstack hmem
      exact ⟨hin, hcomes.after_step fun _ => rfl⟩
  | case4 steps value w₀ next stack ih =>
    obtain ⟨hw, -, rfl⟩ := hc
    cases hstack with
    | cons hnext hrest =>
      obtain ⟨hin, hcomes⟩ := ih (hnext.2 (.ok value) w₀ hw) hrest hmem
      exact ⟨hin, hcomes.after_step fun _ => rfl⟩
  | case5 steps e w₀ next stack ih =>
    cases hc with
    | inl hlimit =>
      cases e with
      | failure e =>
        have hstart : (task, w) ∈
            ev.trace (steps + 1) (.done (.error (.failure e)) w₀) (next :: stack) := hmem
        rw [trace_failure hstack.passes] at hstart
        cases hstart
      | _ => cases hlimit
    | inr h =>
      obtain ⟨hw, rfl⟩ := h
      cases hstack with
      | cons hnext hrest =>
        obtain ⟨hin, hcomes⟩ := ih (hnext.2 (.error e) w₀ hw) hrest hmem
        exact ⟨hin, hcomes.after_step fun _ => rfl⟩
  | case6 => cases hmem

/-- A task that fails on the way ends the run that it is part of, in the world that it left. -/
theorem failure_ends {steps used : Nat} {start task : Task} {w w₁ w₂ : World} {e : EvalError}
    (hstart : start.WithinTree t) (hw : w.ClosuresOf t)
    (hmem : (task, w₁) ∈ ev.performed steps start w)
    (hfails : ev.perform used task w₁ = .ended (.error (.failure e), w₂)) :
    ∃ more e', e'.cause = e.cause ∧ ev.perform more start w = .ended (.error (.failure e'), w₂) := by
  cases hmem with
  | head => exact ⟨used, e, rfl, hfails⟩
  | tail _ hmem =>
    have hc := follows_carryOut hrules hhost hfinal (.refl ev.limits) hstart w hw
    obtain ⟨-, first, beneath, hbeneath, hfirst⟩ :=
      comesTo_of_mem_trace hrules hhost hfinal hc .nil hmem
    have hended : ev.run used (ev.carryOut task w₁) [] = .ended (.error (.failure e), w₂) := hfails
    obtain ⟨second, hsecond⟩ := @run_append ev used (ev.carryOut task w₁) [] (by rw [hended]; exact nofun)
    obtain ⟨e', hcause, hrun⟩ := @run_failure ev (beneath.length + 1) e w₂ beneath hbeneath
      (Nat.lt_succ_self _)
    refine ⟨first + (second + (beneath.length + 1)), e', hcause, ?_⟩
    have hdeep := hsecond (beneath.length + 1) beneath
    rw [hended] at hdeep
    rw [perform, hfirst]
    exact hdeep.trans hrun

omit hhost hfinal

/-- A `try` without a finalizer receives nothing but what its block throws: with any other outcome of the
block it ends at once. -/
theorem tryStatement_passes {a : Activation} {n block : NodeId} (htag : a.tree.tag n = "TryStatement")
    (hfinalizer : a.tree.child? n "finalizer" = none) (hblock : a.tree.child? n "block" = some block)
    (s : ScopeId) (w : World) :
    ∃ resume, ev.carryOut (.eval a n s) w = .ask (.eval a block s) w resume ∧
      ∀ outcome w', (∀ v, outcome ≠ .error (.threw v)) →
        resume outcome w' = .delivered (outcome.mapError fun e => e.raisedAt n) w' := by
  have hrule : RuleTable.default.get? (a.tree.tag n) = some .tryStatement := by
    rw [htag]
    exact RuleTable.get?_default ("TryStatement", _) (by simp)
  have hnone : (ev.context a).tree.child? n "finalizer" = none := hfinalizer
  have hrequire : (ev.context a).require n "block" = pure block := by
    have hchild : (ev.context a).tree.child? n "block" = some block := hblock
    rw [Context.require, hchild]
  have hcarry : ev.carryOut (.eval a n s) w =
      ((((ev.context a).guardedBlock n block s).catching >>= Context.tryStatement.resume).raisedAt n w).andThen
        fun value w => .done (.ok (.value value)) w := by
    have heval : ev.evalNode a n s = ((ev.context a).tryStatement n s).raisedAt n := by
      rw [evalNode, hrules, hrule]
      rfl
    rw [carryOut, heval, Context.tryStatement, hrequire, hnone]
    rfl
  rw [hcarry]
  refine ⟨_, rfl, fun outcome w' hthrown => ?_⟩
  cases outcome with
  | ok value => rfl
  | error e =>
    cases e with
    | threw v => exact absurd rfl (hthrown v)
    | _ => rfl

omit hrules

/-- The tasks of a resolved program are in its tree. -/
theorem withinTree_of_resolve {root : ScopeId} {w w₁ : World} {r : Resolved}
    (hresolve : ev.resolve t root w = (.ok r, w₁)) : r.tree = t ∧ w₁.closures = w.closures := by
  rw [resolve] at hresolve
  split at hresolve
  · cases hresolve
    exact ⟨rfl, rfl⟩
  · cases hresolve

/-- **Limits are transparent until they fire.** A program without finalizers, evaluated with the default
rules and functions of the host that make no closures: whatever it comes to under some limits, other than
a failure of one of them, it comes to under wider limits, in the same world. A task that fails on the way
ends the whole evaluation in a failure for that cause, in the world that it left; and a `try` receives
nothing but what its block throws. -/
theorem limits_transparent (ev : Evaluator) (hrules : ev.rules = RuleTable.default)
    (hhost : ev.host.MakesNoClosures) (limits : Limits) (hlimits : ev.limits.Within limits) (t : Tree)
    (hfinal : t.NoFinalizer) (root : ScopeId) (w w₁ : World) (hw : w.closures = #[]) (r : Resolved)
    (hresolve : ev.resolve t root w = (.ok r, w₁)) :
    let start := Task.eval ⟨r.tree, r.links, 0⟩ r.links.root r.links.rootScope
    let wider : Evaluator := { ev with limits }
    wider.resolve t root w = (.ok r, w₁) ∧
    (∀ steps outcome w₂, ev.perform steps start w₁ = .ended (outcome, w₂) →
      (∀ e, outcome = .error e → ¬ e.HitsLimit) →
      wider.perform steps start w₁ = .ended (outcome, w₂)) ∧
    (∀ steps used task w' w₂ e, (task, w') ∈ ev.performed steps start w₁ →
      ev.perform used task w' = .ended (.error (.failure e), w₂) →
      ∃ more e', e'.cause = e.cause ∧ ev.perform more start w₁ = .ended (.error (.failure e'), w₂)) ∧
    (∀ steps a n s w', (.eval a n s, w') ∈ ev.performed steps start w₁ → ∀ block,
      t.tag n = "TryStatement" → t.child? n "block" = some block →
      ∃ resume, ev.carryOut (.eval a n s) w' = .ask (.eval a block s) w' resume ∧
        ∀ outcome w₂, (∀ v, outcome ≠ .error (.threw v)) →
          resume outcome w₂ = .delivered (outcome.mapError fun e => e.raisedAt n) w₂) := by
  obtain ⟨rfl, hclosures⟩ := withinTree_of_resolve hresolve
  have hw₁ : w₁.ClosuresOf r.tree := World.closuresOf_of_empty (hclosures.trans hw)
  have hstart : (Task.eval ⟨r.tree, r.links, 0⟩ r.links.root r.links.rootScope).WithinTree r.tree := rfl
  refine ⟨hresolve, fun steps outcome w₂ hrun hlimit => ?_, fun steps used task w' w₂ e hmem hfails =>
    failure_ends hrules hhost hfinal hstart hw₁ hmem hfails, fun steps a n s w' hmem block htag hblock => ?_⟩
  · have hc := follows_carryOut hrules hhost hfinal hlimits hstart w₁ hw₁
    cases run_follows hrules hhost hfinal hlimits hc .nil hrun with
    | inl hhit =>
      obtain ⟨e, rfl, hhit⟩ := hhit
      exact absurd hhit (hlimit e rfl)
    | inr hsame => exact hsame
  · have htree : a.tree = r.tree := by
      cases hmem with
      | head => rfl
      | tail _ hmem =>
        have hc := follows_carryOut hrules hhost hfinal (.refl ev.limits) hstart w₁ hw₁
        exact (comesTo_of_mem_trace hrules hhost hfinal hc .nil hmem).1
    rw [← htree] at htag hblock hfinal
    exact tryStatement_passes hrules htag (hfinal n htag) hblock s w'

end Evaluator

/-- The functions of the standard host make no closures. -/
theorem Host.standard_makesNoClosures : Host.standard.MakesNoClosures := by
  intro name native hnative receiver args w
  have hfind : Host.Native.find? name = some native := hnative
  unfold Host.Native.find? at hfind
  split at hfind <;> cases hfind <;> rfl

/-- Whether a program resolves against a new root scope, to what passes a check. -/
def Evaluator.resolvesTo (ev : Evaluator) (t : Tree) (check : Resolved → World → Bool) : Bool :=
  match ev.resolve t 0 (World.newRootScope {}).2 with
  | (.ok r, w) => check r w
  | _ => false

theorem Evaluator.exists_of_resolvesTo {ev : Evaluator} {t : Tree} {check : Resolved → World → Bool}
    (h : ev.resolvesTo t check = true) :
    ∃ r w, ev.resolve t 0 (World.newRootScope {}).2 = (.ok r, w) ∧ check r w = true := by
  unfold resolvesTo at h
  split at h
  next r w hresolve => exact ⟨r, w, hresolve, h⟩
  · cases h

/-- Whether a run ends with `true`. -/
def Run.isTrue : Run (Except Abrupt Value × World) → Bool
  | .ended (.ok (.bool true), _) => true
  | _ => false

theorem Run.exists_of_isTrue {run : Run (Except Abrupt Value × World)} (h : run.isTrue = true) :
    ∃ w, run = .ended (.ok (.bool true), w) := by
  unfold isTrue at h
  split at h
  next w => exact ⟨w, rfl⟩
  · cases h

/-- Whether no `try` of the tree has a finalizer. -/
def Tree.lacksFinalizers (t : Tree) : Bool :=
  (List.range t.size).all fun n => t.tag n != "TryStatement" || (t.child? n "finalizer").isNone

theorem Tree.noFinalizer_of_lacks {t : Tree} (h : t.lacksFinalizers = true) : t.NoFinalizer := by
  intro n htag
  have hcheck := Tree.of_all_nodes h (n := n) (htag ▸ by decide)
  simpa [htag] using hcheck

/-- `function f(a) { try { throw a; } catch (e) { return e; } } f(true);` -/
def catchProgram : Json :=
  let block (statements : List Json) : Json := .ofNode "BlockStatement" [("body", .array statements)]
  let clause := Json.ofNode "CatchClause" [("param", .ofName "e"),
    ("body", block [.ofNode "ReturnStatement" [("argument", .ofName "e")]])]
  let attempt := Json.ofNode "TryStatement"
    [("block", block [.ofNode "ThrowStatement" [("argument", .ofName "a")]]), ("handler", clause)]
  let function := Json.ofNode "FunctionDeclaration" [("id", .ofName "f"),
    ("params", .array [.ofName "a"]), ("body", block [attempt])]
  let call := Json.ofNode "CallExpression" [("callee", .ofName "f"),
    ("arguments", .array [.ofNode "Literal" [("value", .bool true)]])]
  .ofNode "Program" [("body", .array [function, .ofNode "ExpressionStatement" [("expression", call)]])]

namespace Evaluator

/-- One call at a time, and no array that grows. -/
def confined : Evaluator := { standard with limits := ⟨1, 0⟩ }

theorem confined_rules : confined.rules = RuleTable.default := by rw [confined, standard]

theorem confined_widened : ({ confined with limits := standard.limits } : Evaluator) = standard := by
  rw [confined]

theorem confined_within : confined.limits.Within standard.limits := by
  have hdepth : confined.limits.maxCallDepth = 1 := rfl
  have hwide : standard.limits.maxCallDepth = 10000 := by rw [standard]
  constructor
  · omega
  · exact Nat.zero_le _

theorem limits_transparent_catch : ∃ t r w₁ w₂, Tree.ofJson catchProgram = .ok t ∧
    confined.resolve t 0 (World.newRootScope {}).2 = (.ok r, w₁) ∧
    confined.perform 80 (.eval ⟨r.tree, r.links, 0⟩ r.links.root r.links.rootScope) w₁ =
      .ended (.ok (.bool true), w₂) ∧
    standard.perform 80 (.eval ⟨r.tree, r.links, 0⟩ r.links.root r.links.rootScope) w₁ =
      .ended (.ok (.bool true), w₂) := by
  obtain ⟨t, ht, hcheck⟩ := Tree.exists_ofJson (j := catchProgram)
    (p := fun t => t.lacksFinalizers && confined.resolvesTo t fun r w =>
      (confined.perform 80 (.eval ⟨r.tree, r.links, 0⟩ r.links.root r.links.rootScope) w).isTrue)
    (by decide +kernel)
  rw [Bool.and_eq_true] at hcheck
  obtain ⟨hfinal, hfound⟩ := hcheck
  obtain ⟨r, w₁, hresolve, hended⟩ := exists_of_resolvesTo hfound
  obtain ⟨w₂, hrun⟩ := Run.exists_of_isTrue hended
  have htransparent := limits_transparent confined confined_rules Host.standard_makesNoClosures
    standard.limits confined_within t (Tree.noFinalizer_of_lacks hfinal) 0
    (World.newRootScope {}).2 w₁ rfl r hresolve
  have hwide := htransparent.2.1 80 (.ok (.bool true)) w₂ hrun (fun e he => by cases he)
  simp only [confined_widened] at hwide
  exact ⟨t, r, w₁, w₂, ht, hresolve, hrun, hwide⟩

end Evaluator

end ScriptCore

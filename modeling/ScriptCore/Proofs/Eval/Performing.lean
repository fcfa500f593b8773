import ScriptCore.Proofs.Eval.Asking

/-!
# Performing a task

A task that is performed to an end, normal or not, takes the errands of its computation, and then those of
the tasks that it hands over to (`Evaluator.Performs`); it comes to an end in no other way
(`Evaluator.exists_perform_iff`). Errands to any end are put together and taken apart as the steps are that ask
for them (`Computation.takes_andThen_iff`, `Computation.takes_caught_iff`).
-/
namespace ScriptCore

namespace Computation

variable {α β : Type} {ev : Evaluator} {c : Computation α} {errands : List Errand} {w' : World}

theorem takes_done_iff {given outcome : Except Abrupt α} {w : World} :
    (Computation.done given w).Takes ev errands outcome w' ↔ errands = [] ∧ outcome = given ∧ w' = w := by
  constructor
  · intro h
    cases h
    exact ⟨rfl, rfl, rfl⟩
  · rintro ⟨rfl, rfl, rfl⟩
    exact .done _ _

/-- Two steps in a row end as the first one does, if that is abruptly, or as the second one from there. -/
theorem takes_andThen_iff {f : α → World → Computation β} {outcome : Except Abrupt β} :
    (c.andThen f).Takes ev errands outcome w' ↔
      (∃ e, outcome = .error e ∧ c.Takes ev errands (.error e) w') ∨
      ∃ first rest a w₁, errands = first ++ rest ∧ c.Takes ev first (.ok a) w₁ ∧
        (f a w₁).Takes ev rest outcome w' := by
  constructor
  · intro h
    induction c generalizing errands with
    | done given w =>
      cases given with
      | ok a => exact Or.inr ⟨[], errands, a, w, rfl, .done _ w, h⟩
      | error e =>
        cases h
        exact Or.inl ⟨e, rfl, .done _ _⟩
    | ask task w resume ih =>
      cases h with
      | ask hperform hrest =>
        obtain ⟨e, rfl, hfirst⟩ | ⟨first, rest, a, w₁, rfl, hfirst, hsecond⟩ := ih _ _ hrest
        · exact Or.inl ⟨e, rfl, .ask hperform hfirst⟩
        · exact Or.inr ⟨_ :: first, rest, a, w₁, rfl, .ask hperform hfirst, hsecond⟩
    | brokenOff => cases h
  · rintro (⟨e, rfl, hfirst⟩ | ⟨first, rest, a, w₁, rfl, hfirst, hsecond⟩)
    · induction c generalizing errands with
      | done given w =>
        cases hfirst
        exact .done _ _
      | ask task w resume ih =>
        cases hfirst with
        | ask hperform hrest => exact .ask hperform (ih _ _ hrest)
      | brokenOff => cases hfirst
    · exact hfirst.andThen hsecond

theorem takes_caught_iff {outcome : Except Abrupt (Except Abrupt α)} :
    c.caught.Takes ev errands outcome w' ↔ ∃ given, outcome = .ok given ∧ c.Takes ev errands given w' := by
  constructor
  · intro h
    induction c generalizing errands with
    | done given w =>
      cases h
      exact ⟨given, rfl, .done _ _⟩
    | ask task w resume ih =>
      cases h with
      | ask hperform hrest =>
        obtain ⟨given, rfl, hgiven⟩ := ih _ _ hrest
        exact ⟨given, rfl, .ask hperform hgiven⟩
    | brokenOff => cases h
  · rintro ⟨given, rfl, h⟩
    induction h with
    | done given w => exact .done _ w
    | ask hperform _ ih => exact .ask hperform ih

theorem takes_raisedAt_iff {n : NodeId} {outcome : Except Abrupt α} :
    (c.raisedAt n).Takes ev errands outcome w' ↔
      ∃ given, outcome = given.mapError (·.raisedAt n) ∧ c.Takes ev errands given w' := by
  constructor
  · intro h
    induction c generalizing errands with
    | done given w => cases given <;> cases h <;> exact ⟨_, rfl, .done _ _⟩
    | ask task w resume ih =>
      cases h with
      | ask hperform hrest =>
        obtain ⟨given, heq, hgiven⟩ := ih _ _ hrest
        exact ⟨given, heq, .ask hperform hgiven⟩
    | brokenOff => cases h
  · rintro ⟨given, rfl, h⟩
    induction h with
    | done given w => cases given <;> exact .done _ w
    | ask hperform _ ih => exact .ask hperform ih

theorem takes_ask_iff {task : Task} {w : World} {resume : Except Abrupt Value → World → Computation α}
    {outcome : Except Abrupt α} : (Computation.ask task w resume).Takes ev errands outcome w' ↔
      ∃ used given w₁ rest, ev.perform used task w = .ended (given, w₁) ∧
        errands = ⟨task, w, given, w₁⟩ :: rest ∧ (resume given w₁).Takes ev rest outcome w' := by
  constructor
  · intro h
    cases h with
    | ask hperform hrest => exact ⟨_, _, _, _, hperform, rfl, hrest⟩
  · rintro ⟨used, given, w₁, rest, hperform, rfl, hrest⟩
    exact .ask hperform hrest

/-- A computation that takes errands is run to where it comes to. -/
theorem Takes.run_from {c : Computation Ending} {ending : Except Abrupt Ending} (h : c.Takes ev errands ending w') :
    ∃ used, ∀ more, ev.run (used + more) c [] = ev.run more (.done ending w') [] := by
  induction h with
  | done ending w => exact ⟨0, fun more => by rw [Nat.zero_add]⟩
  | @ask task w w₁ w' resume used given errands ending hperform _ ih =>
    obtain ⟨before, hbefore⟩ := Evaluator.run_ask (by rw [hperform]; exact nofun) resume
    obtain ⟨later, hlater⟩ := ih
    refine ⟨before + later, fun more => ?_⟩
    rw [Nat.add_assoc, hbefore, hperform]
    exact hlater more

end Computation

/-- The task was performed in its world, and came to this. -/
def Errand.Performed (ev : Evaluator) (errand : Errand) : Prop :=
  ∃ used, ev.perform used errand.task errand.start = .ended (errand.outcome, errand.stop)

namespace Eval

variable {α β : Type} {ev : Evaluator} {errands : List Errand} {w w' : World} {outcome : Except Abrupt β}

theorem takes_bind_iff {m : Eval α} {f : α → Eval β} : ((m >>= f) w).Takes ev errands outcome w' ↔
    (∃ e, outcome = .error e ∧ (m w).Takes ev errands (.error e) w') ∨
    ∃ first rest a w₁, errands = first ++ rest ∧ (m w).Takes ev first (.ok a) w₁ ∧
      (f a w₁).Takes ev rest outcome w' :=
  Computation.takes_andThen_iff

/-- A step whose outcome the next one goes on from. -/
theorem takes_catching_iff {m : Eval α} {f : Except Abrupt α → Eval β} :
    ((m.catching >>= f) w).Takes ev errands outcome w' ↔ ∃ first rest given w₁, errands = first ++ rest ∧
      (m w).Takes ev first given w₁ ∧ (f given w₁).Takes ev rest outcome w' := by
  constructor
  · intro h
    obtain ⟨e, -, hfirst⟩ | ⟨first, rest, given, w₁, rfl, hfirst, hrest⟩ := takes_bind_iff.mp h
    · obtain ⟨given, heq, -⟩ := Computation.takes_caught_iff.mp hfirst
      cases heq
    · obtain ⟨given, heq, hfirst⟩ := Computation.takes_caught_iff.mp hfirst
      cases heq
      exact ⟨first, rest, _, w₁, rfl, hfirst, hrest⟩
  · rintro ⟨first, rest, given, w₁, rfl, hfirst, hrest⟩
    exact (Computation.takes_caught_iff.mpr ⟨given, rfl, hfirst⟩).andThen hrest

/-- A step that asks for nothing ends the errands, or leaves them to the next one. -/
theorem takes_immediate_iff {m : Eval α} {f : α → Eval β} (h : ∃ given w₁, m w = .done given w₁) :
    ((m >>= f) w).Takes ev errands outcome w' ↔
      (∃ e, m w = .done (.error e) w' ∧ errands = [] ∧ outcome = .error e) ∨
      ∃ a w₁, m w = .done (.ok a) w₁ ∧ (f a w₁).Takes ev errands outcome w' := by
  obtain ⟨given, w₁, hdone⟩ := h
  rw [show (m >>= f) w = (m w).andThen fun a => f a from rfl, hdone]
  cases given with
  | ok a =>
    constructor
    · intro h
      exact Or.inr ⟨a, w₁, rfl, h⟩
    · rintro (⟨e, heq, -⟩ | ⟨a, w₂, heq, h⟩)
      · cases heq
      · cases heq
        exact h
  | error e =>
    constructor
    · intro h
      obtain ⟨rfl, rfl, rfl⟩ := Computation.takes_done_iff.mp h
      exact Or.inl ⟨e, rfl, rfl, rfl⟩
    · rintro (⟨e, heq, rfl, rfl⟩ | ⟨a, w₂, heq, -⟩)
      · cases heq
        exact .done _ _
      · cases heq

end Eval

namespace Context

variable {ev : Evaluator} {c : Context} {errands : List Errand} {w w' : World} {outcome : Except Abrupt Value}
  {n : NodeId} {s : ScopeId}

theorem takes_eval_iff : (c.eval n s w).Takes ev errands outcome w' ↔
    errands = [⟨.eval c.toActivation n s, w, outcome, w'⟩] ∧
      Errand.Performed ev ⟨.eval c.toActivation n s, w, outcome, w'⟩ := by
  rw [show c.eval n s w = .ask (.eval c.toActivation n s) w fun given w => .done given w from rfl,
    Computation.takes_ask_iff]
  constructor
  · rintro ⟨used, given, w₁, rest, hperform, rfl, hrest⟩
    obtain ⟨rfl, rfl, rfl⟩ := Computation.takes_done_iff.mp hrest
    exact ⟨rfl, used, hperform⟩
  · rintro ⟨rfl, used, hperform⟩
    exact ⟨used, outcome, w', [], hperform, rfl, .done _ _⟩

/-- A node that is evaluated, and what goes on from its value. -/
theorem takes_eval_then_iff {β : Type} {outcome : Except Abrupt β} {f : Value → Eval β} :
    ((c.eval n s >>= f) w).Takes ev errands outcome w' ↔
      (∃ e, outcome = .error e ∧ errands = [⟨.eval c.toActivation n s, w, .error e, w'⟩] ∧
        Errand.Performed ev ⟨.eval c.toActivation n s, w, .error e, w'⟩) ∨
      ∃ value w₁ rest, errands = ⟨.eval c.toActivation n s, w, .ok value, w₁⟩ :: rest ∧
        Errand.Performed ev ⟨.eval c.toActivation n s, w, .ok value, w₁⟩ ∧ (f value w₁).Takes ev rest outcome w' := by
  rw [Eval.takes_bind_iff]
  simp only [takes_eval_iff]
  constructor
  · rintro (h | ⟨first, rest, value, w₁, rfl, ⟨rfl, hperformed⟩, hrest⟩)
    · exact Or.inl h
    · exact Or.inr ⟨value, w₁, rest, rfl, hperformed, hrest⟩
  · rintro (h | ⟨value, w₁, rest, rfl, hperformed, hrest⟩)
    · exact Or.inl h
    · exact Or.inr ⟨[_], rest, value, w₁, rfl, ⟨rfl, hperformed⟩, hrest⟩

/-- A child that a node lacks is a failure, without an errand. -/
theorem takes_require_iff {β : Type} {outcome : Except Abrupt β} {key : String} {f : NodeId → Eval β} :
    ((c.require n key >>= f) w).Takes ev errands outcome w' ↔
      (∃ child, c.tree.child? n key = some child ∧ (f child w).Takes ev errands outcome w') ∨
      c.tree.child? n key = none ∧ errands = [] ∧
        outcome = .error (.of (.malformedNode (c.tree.tag n) ("missing `" ++ key ++ "`"))) ∧ w' = w := by
  cases hchild : c.tree.child? n key with
  | some child =>
    rw [require, hchild]
    constructor
    · intro h
      exact Or.inl ⟨child, rfl, h⟩
    · rintro (⟨_, ⟨⟩, h⟩ | ⟨⟨⟩, -⟩)
      exact h
  | none =>
    have hlacks : (c.require n key >>= f) w =
        .done (.error (.of (.malformedNode (c.tree.tag n) ("missing `" ++ key ++ "`")))) w := by
      rw [require, hchild]
      rfl
    rw [hlacks, Computation.takes_done_iff]
    constructor
    · intro h
      exact Or.inr ⟨rfl, h⟩
    · rintro (⟨_, ⟨⟩, -⟩ | ⟨-, h⟩)
      exact h

end Context

namespace Evaluator

variable {ev : Evaluator} {task : Task} {w w' : World} {outcome : Except Abrupt Value} {errands : List Errand}

/-- A task comes to an outcome by way of errands: those of its computation, and those of what this hands
over to. -/
inductive Performs (ev : Evaluator) : Task → World → List Errand → Except Abrupt Value → World → Prop
  | value {task : Task} {w w' : World} {errands : List Errand} {value : Value}
    (h : (ev.carryOut task w).Takes ev errands (.ok (.value value)) w') : Performs ev task w errands (.ok value) w'
  | abrupt {task : Task} {w w' : World} {errands : List Errand} {e : Abrupt}
    (h : (ev.carryOut task w).Takes ev errands (.error e) w') : Performs ev task w errands (.error e) w'
  | handOver {task next : Task} {w w₁ w' : World} {first rest : List Errand} {outcome : Except Abrupt Value}
    (h : (ev.carryOut task w).Takes ev first (.ok (.handOver next)) w₁)
    (hrest : Performs ev next w₁ rest outcome w') : Performs ev task w (first ++ rest) outcome w'

/-- How a run from a computation goes on after its errands. -/
theorem takes_of_run {steps : Nat} {c : Computation Ending} {result : Except Abrupt Value × World}
    (h : ev.run steps c [] = .ended result) : ∃ errands ending w₁ more, more ≤ steps ∧
      c.Takes ev errands ending w₁ ∧ ev.run more (.done ending w₁) [] = .ended result := by
  induction c generalizing steps with
  | brokenOff => cases steps <;> cases h
  | done ending w => exact ⟨[], ending, w, steps, Nat.le_refl _, .done _ _, h⟩
  | ask task w resume ih =>
    obtain ⟨used, given, w₁, more, -, hmore, hperform, hrest, -⟩ := run_ask_ended h
    obtain ⟨errands, ending, w₂, last, hlast, htakes, hend⟩ := ih given w₁ hrest
    exact ⟨_, ending, w₂, last, by omega, .ask hperform htakes, hend⟩

theorem performs_of_perform {steps : Nat} (h : ev.perform steps task w = .ended (outcome, w')) :
    ∃ errands, ev.Performs task w errands outcome w' := by
  induction steps using Nat.strongRecOn generalizing task w with
  | _ steps ih =>
    obtain ⟨errands, ending, w₁, more, hle, htakes, hend⟩ := takes_of_run h
    cases more with
    | zero => cases hend
    | succ more =>
      cases ending with
      | error e =>
        cases hend
        exact ⟨errands, .abrupt htakes⟩
      | ok ending =>
        cases ending with
        | value value =>
          cases hend
          exact ⟨errands, .value htakes⟩
        | handOver next =>
          obtain ⟨rest, hrest⟩ := ih more hle hend
          exact ⟨errands ++ rest, .handOver htakes hrest⟩

/-- **A task comes to an end by way of errands,** and in no other way. -/
theorem exists_perform_iff : (∃ steps, ev.perform steps task w = .ended (outcome, w')) ↔
    ∃ errands, ev.Performs task w errands outcome w' := by
  constructor
  · rintro ⟨steps, h⟩
    exact performs_of_perform h
  · rintro ⟨errands, h⟩
    induction h with
    | value h =>
      obtain ⟨used, hused⟩ := h.run_from
      exact ⟨used + 1, hused 1⟩
    | abrupt h =>
      obtain ⟨used, hused⟩ := h.run_from
      exact ⟨used + 1, hused 1⟩
    | handOver h _ ih =>
      obtain ⟨used, hused⟩ := h.run_from
      obtain ⟨steps, hsteps⟩ := ih
      exact ⟨used + (steps + 1), (hused (steps + 1)).trans hsteps⟩

/-- A task of a step that comes to a value takes the errands of the step. -/
theorem performs_iff_takes {m : Eval Value} (hcarry : ev.carryOut task = Ending.value <$> m) :
    ev.Performs task w errands outcome w' ↔ (m w).Takes ev errands outcome w' := by
  have hends {ending : Except Abrupt Ending} {errands : List Errand} {w' : World} :
      (ev.carryOut task w).Takes ev errands ending w' ↔
      ∃ given, ending = given.map Ending.value ∧ (m w).Takes ev errands given w' := by
    rw [hcarry, show (Ending.value <$> m) w = (m w).andThen fun v w => .done (.ok (.value v)) w from rfl,
      Computation.takes_andThen_iff]
    constructor
    · rintro (⟨e, rfl, h⟩ | ⟨first, rest, v, w₁, rfl, hfirst, hrest⟩)
      · exact ⟨.error e, rfl, h⟩
      · obtain ⟨rfl, rfl, rfl⟩ := Computation.takes_done_iff.mp hrest
        rw [List.append_nil]
        exact ⟨.ok v, rfl, hfirst⟩
    · rintro ⟨e | v, rfl, h⟩
      · exact Or.inl ⟨e, rfl, h⟩
      · exact Or.inr ⟨errands, [], v, w', by rw [List.append_nil], h, .done _ _⟩
  constructor
  · intro h
    cases h with
    | value h =>
      obtain ⟨given, heq, htakes⟩ := hends.mp h
      cases given <;> cases heq
      exact htakes
    | abrupt h =>
      obtain ⟨given, heq, htakes⟩ := hends.mp h
      cases given <;> cases heq
      exact htakes
    | handOver h _ =>
      obtain ⟨given, heq, -⟩ := hends.mp h
      cases given <;> cases heq
  · intro h
    cases outcome with
    | error e => exact .abrupt (hends.mpr ⟨_, rfl, h⟩)
    | ok value => exact .value (hends.mpr ⟨_, rfl, h⟩)

/-- Each errand of a task was performed. -/
theorem Performs.performed (h : ev.Performs task w errands outcome w') : ∀ errand ∈ errands, errand.Performed ev := by
  induction h with
  | value h => exact h.performed
  | abrupt h => exact h.performed
  | handOver h _ ih => exact List.forall_mem_append.mpr ⟨h.performed, ih⟩

/-- The evaluation of a node takes the errands of its rule, and places a failure at the node. -/
theorem performs_eval_iff {a : Activation} {n : NodeId} {s : ScopeId} {rule : Rule}
    (hrule : ev.rules.get? (a.tree.tag n) = some rule) : ev.Performs (.eval a n s) w errands outcome w' ↔
      ∃ given, outcome = given.mapError (·.raisedAt n) ∧
        (rule.meaning ev.host (ev.context a) n s w).Takes ev errands given w' := by
  rw [performs_iff_takes (m := ev.evalNode a n s) rfl, evalNode, hrule]
  exact Computation.takes_raisedAt_iff

/-! ## Nodes in a row -/

/-- Nodes are evaluated in a row, each once and to a value. -/
inductive Evaluates (ev : Evaluator) (a : Activation) (s : ScopeId) :
    List NodeId → World → List Errand → World → Prop
  | nil (w : World) : Evaluates ev a s [] w [] w
  | cons {m : NodeId} {rest : List NodeId} {value : Value} {w w₁ w' : World} {errands : List Errand}
    (hperformed : Errand.Performed ev ⟨.eval a m s, w, .ok value, w₁⟩) (hrest : Evaluates ev a s rest w₁ errands w') :
    Evaluates ev a s (m :: rest) w (⟨.eval a m s, w, .ok value, w₁⟩ :: errands) w'

/-- Statements are run in order, all of them or up to the first that ends abruptly, and come to the value of the
last one. -/
inductive RunsEach (ev : Evaluator) (a : Activation) (s : ScopeId) (statements : List NodeId) (last : Value)
    (w : World) : List Errand → Except Abrupt Value → World → Prop
  | completed {errands : List Errand} {value : Value} {w' : World} (h : ev.Evaluates a s statements w errands w')
    (hvalue : (errands.getLast?.map Errand.outcome).getD (.ok last) = .ok value) :
    RunsEach ev a s statements last w errands (.ok value) w'
  | abrupt (before after : List NodeId) (errands : List Errand) {m : NodeId} {e : Abrupt} {w₁ w' : World}
    (hstatements : statements = before ++ m :: after) (hbefore : ev.Evaluates a s before w errands w₁)
    (hperformed : Errand.Performed ev ⟨.eval a m s, w₁, .error e, w'⟩) :
    RunsEach ev a s statements last w (errands ++ [⟨.eval a m s, w₁, .error e, w'⟩]) (.error e) w'

variable {a : Activation} {s : ScopeId}

theorem Evaluates.append {first rest : List NodeId} {w₁ : World} {others : List Errand}
    (hfirst : ev.Evaluates a s first w errands w₁) (hrest : ev.Evaluates a s rest w₁ others w') :
    ev.Evaluates a s (first ++ rest) w (errands ++ others) w' := by
  induction hfirst with
  | nil w => exact hrest
  | cons hperformed _ ih => exact .cons hperformed (ih hrest)

theorem takes_evalEach_iff {statements : List NodeId} {last : Value} :
    ((ev.context a).evalEach s last statements w).Takes ev errands outcome w' ↔
      ev.RunsEach a s statements last w errands outcome w' := by
  induction statements generalizing last w errands with
  | nil =>
    rw [Context.evalEach]
    constructor
    · intro h
      obtain ⟨rfl, rfl, rfl⟩ := Computation.takes_done_iff.mp h
      exact .completed (.nil _) rfl
    · intro h
      cases h with
      | completed h hvalue =>
        cases h
        cases hvalue
        exact .done _ _
      | abrupt before _ _ hstatements => cases before <;> cases hstatements
  | cons m rest ih =>
    -- the last value of the rest is that of the first statement, unless there are others
    have hlast {value : Value} {w₁ : World} {errands : List Errand} :
        ((⟨.eval a m s, w, .ok value, w₁⟩ :: errands).getLast?.map Errand.outcome).getD (.ok last) =
          (errands.getLast?.map Errand.outcome).getD (.ok value) := by
      rw [List.getLast?_cons]
      cases errands.getLast? <;> rfl
    rw [Context.evalEach, Context.takes_eval_then_iff]
    constructor
    · rintro (⟨e, rfl, rfl, hperformed⟩ | ⟨value, w₁, others, rfl, hperformed, hrest⟩)
      · exact .abrupt [] rest [] rfl (.nil w) hperformed
      · cases ih.mp hrest with
        | completed h hvalue => exact .completed (.cons hperformed h) (hlast.trans hvalue)
        | abrupt before after errands hstatements hbefore hfailed =>
          exact .abrupt (m :: before) after (_ :: errands) (congrArg _ hstatements) (.cons hperformed hbefore) hfailed
    · intro h
      cases h with
      | completed h hvalue =>
        cases h with
        | cons hperformed h =>
          exact Or.inr ⟨_, _, _, rfl, hperformed, ih.mpr (.completed h (hlast.symm.trans hvalue))⟩
      | abrupt before after errands hstatements hbefore hfailed =>
        cases hbefore with
        | nil =>
          cases hstatements
          exact Or.inl ⟨_, rfl, rfl, hfailed⟩
        | cons hperformed hbefore =>
          cases hstatements
          exact Or.inr ⟨_, _, _, rfl, hperformed, ih.mpr (.abrupt _ after _ rfl hbefore hfailed)⟩

end Evaluator

theorem Errand.Performed.performs {ev : Evaluator} {errand : Errand} (h : errand.Performed ev) :
    ∃ errands, ev.Performs errand.task errand.start errands errand.outcome errand.stop := by
  obtain ⟨used, hperform⟩ := h
  exact Evaluator.performs_of_perform hperform

end ScriptCore

import ScriptCore.Proofs.Eval.Ending

/-!
# What a computation asks for

A computation that comes to an end has asked for tasks in turn, each of which was performed and came to an
outcome (`Computation.Takes`). Here the errands to those tasks are kept, with the worlds around them; so the
end of a computation is traced back through the steps that it was built of, along with what each of them
asked for.
-/
namespace ScriptCore

/-- A task that was asked for in a world, and what came of it. -/
structure Errand where
  task : Task
  start : World
  outcome : Except Abrupt Value
  stop : World

/-- Errands that follow one another, from one world to another, with nothing done in between. -/
def Errand.Chain : World → List Errand → World → Prop
  | w, [], w' => w' = w
  | w, errand :: rest, w' => errand.start = w ∧ Chain errand.stop rest w'

namespace Errand.Chain

variable {w w₁ w' : World} {first rest : List Errand}

theorem append (hfirst : Chain w first w₁) (hrest : Chain w₁ rest w') : Chain w (first ++ rest) w' := by
  induction first generalizing w with
  | nil =>
    cases hfirst
    exact hrest
  | cons errand first ih => exact ⟨hfirst.1, ih hfirst.2⟩

/-- What no errand changes is at the end of the chain, and at the start of each errand, what it was. -/
theorem keeps {R : World → World → Prop} (hrefl : ∀ w, R w w)
    (htrans : ∀ {w₁ w₂ w₃}, R w₁ w₂ → R w₂ w₃ → R w₁ w₃) (h : Chain w first w')
    (herrands : ∀ errand ∈ first, R errand.start errand.stop) :
    R w w' ∧ ∀ errand ∈ first, R w errand.start := by
  induction first generalizing w with
  | nil =>
    have hend : w' = w := h
    rw [hend]
    exact ⟨hrefl w, by simp⟩
  | cons errand first ih =>
    obtain ⟨hstart, hchain⟩ := h
    obtain ⟨herrand, hothers⟩ := List.forall_mem_cons.mp herrands
    obtain ⟨hend, hstarts⟩ := ih hchain hothers
    rw [← hstart]
    exact ⟨htrans herrand hend, List.forall_mem_cons.mpr ⟨hrefl _, fun other hother =>
      htrans herrand (hstarts other hother)⟩⟩

end Errand.Chain

namespace Computation

variable {α β : Type} {ev : Evaluator}

/-- A computation comes to an outcome in a world by way of errands: it is done, or it asks for a task, which is
performed, and goes on with what came of it. -/
inductive Takes (ev : Evaluator) : Computation α → List Errand → Except Abrupt α → World → Prop
  | done (outcome : Except Abrupt α) (w : World) : Takes ev (.done outcome w) [] outcome w
  | ask {task : Task} {w w₁ w' : World} {resume : Except Abrupt Value → World → Computation α}
    {used : Nat} {given : Except Abrupt Value} {errands : List Errand} {outcome : Except Abrupt α}
    (hperform : ev.perform used task w = .ended (given, w₁))
    (hrest : Takes ev (resume given w₁) errands outcome w') :
    Takes ev (.ask task w resume) (⟨task, w, given, w₁⟩ :: errands) outcome w'

theorem Ends.exists_takes {entries : List (Task × World)} {c : Computation α} {outcome : Except Abrupt α}
    {w' : World} (h : c.Ends ev entries outcome w') : ∃ errands, c.Takes ev errands outcome w' := by
  induction h with
  | done outcome w => exact ⟨[], .done outcome w⟩
  | ask hmem hperform hrest ih =>
    obtain ⟨errands, htakes⟩ := ih
    exact ⟨_, .ask hperform htakes⟩

variable {errands : List Errand} {w w' : World} {b : β}

/-- Each errand was performed. -/
theorem Takes.performed {c : Computation α} {outcome : Except Abrupt α} (h : c.Takes ev errands outcome w') :
    ∀ errand ∈ errands, ∃ used,
      ev.perform used errand.task errand.start = .ended (errand.outcome, errand.stop) := by
  induction h with
  | done => simp
  | ask hperform _ ih => exact List.forall_mem_cons.mpr ⟨⟨_, hperform⟩, ih⟩

/-- A node is attached to failures only. -/
theorem Takes.of_raisedAt {c : Computation α} {n : NodeId} {a : α}
    (h : (c.raisedAt n).Takes ev errands (.ok a) w') : c.Takes ev errands (.ok a) w' := by
  induction c generalizing errands with
  | done outcome w =>
    cases outcome with
    | ok a' => exact h
    | error e => cases h
  | ask task w resume ih =>
    cases h with
    | ask hperform hrest => exact .ask hperform (ih _ _ hrest)
  | brokenOff => cases h

/-- Two steps in a row that come to a value: the first one comes to a value, and the second one goes on from
there. -/
theorem Takes.of_andThen {c : Computation α} {f : α → World → Computation β}
    (h : (c.andThen f).Takes ev errands (.ok b) w') :
    ∃ first rest a w₁, errands = first ++ rest ∧ c.Takes ev first (.ok a) w₁ ∧
      (f a w₁).Takes ev rest (.ok b) w' := by
  induction c generalizing errands with
  | done outcome w =>
    cases outcome with
    | ok a => exact ⟨[], errands, a, w, rfl, .done _ w, h⟩
    | error e => cases h
  | ask task w resume ih =>
    cases h with
    | ask hperform hrest =>
      obtain ⟨first, rest, a, w₁, rfl, hfirst, hsecond⟩ := ih _ _ hrest
      exact ⟨_ :: first, rest, a, w₁, rfl, .ask hperform hfirst, hsecond⟩
  | brokenOff => cases h

/-- Two steps in a row take the errands of both. -/
theorem Takes.andThen {c : Computation α} {f : α → World → Computation β} {first rest : List Errand} {a : α}
    {w₁ : World} {outcome : Except Abrupt β} (hfirst : c.Takes ev first (.ok a) w₁)
    (hrest : (f a w₁).Takes ev rest outcome w') : (c.andThen f).Takes ev (first ++ rest) outcome w' := by
  induction c generalizing first with
  | done given w =>
    cases hfirst
    exact hrest
  | ask task w resume ih =>
    cases hfirst with
    | ask hperform hresumed => exact .ask hperform (ih _ _ hresumed)
  | brokenOff => cases hfirst

theorem Takes.raisedAt {c : Computation α} {a : α} (h : c.Takes ev errands (.ok a) w') (n : NodeId) :
    (c.raisedAt n).Takes ev errands (.ok a) w' := by
  induction c generalizing errands with
  | done outcome w =>
    cases h
    exact .done _ _
  | ask task w resume ih =>
    cases h with
    | ask hperform hrest => exact .ask hperform (ih _ _ hrest)
  | brokenOff => cases h

/-- A computation that takes errands is run to its end. -/
theorem Takes.run {c : Computation Ending} {value : Value} (h : c.Takes ev errands (.ok (.value value)) w') :
    ∃ steps, ev.run steps c [] = .ended (.ok value, w') := by
  induction c generalizing errands with
  | done outcome w =>
    cases h
    exact ⟨1, rfl⟩
  | ask task w resume ih =>
    cases h with
    | ask hperform hrest =>
      obtain ⟨more, hmore⟩ := ih _ _ hrest
      obtain ⟨used, hused⟩ := Evaluator.run_ask (by rw [hperform]; exact nofun) resume
      refine ⟨used + more, ?_⟩
      rw [hused, hperform]
      exact hmore
  | brokenOff => cases h

end Computation

namespace Eval

variable {α β : Type} {ev : Evaluator} {errands : List Errand} {w w' : World} {b : β}

theorem takes_pure {a b : α} (h : ((pure a : Eval α) w).Takes ev errands (.ok b) w') :
    errands = [] ∧ a = b ∧ w' = w := by
  cases h
  exact ⟨rfl, rfl, rfl⟩

theorem of_checks {g : World → Except Cause β} (h : (checks g w).Takes ev errands (.ok b) w') :
    errands = [] ∧ g w = .ok b ∧ w' = w := by
  rw [checks] at h
  split at h
  next heq =>
    cases h
    exact ⟨rfl, heq, rfl⟩
  · cases h

theorem takes_checks {g : World → Except Cause α} {f : α → Eval β}
    (h : ((checks g >>= f) w).Takes ev errands (.ok b) w') :
    ∃ a, g w = .ok a ∧ (f a w).Takes ev errands (.ok b) w' := by
  obtain ⟨first, rest, a, w₁, rfl, hfirst, hrest⟩ := h.of_andThen
  obtain ⟨rfl, ha, rfl⟩ := of_checks hfirst
  exact ⟨a, ha, hrest⟩

theorem takes_makes {g : World → α × World} {f : α → Eval β}
    (h : ((makes g >>= f) w).Takes ev errands (.ok b) w') : (f (g w).1 (g w).2).Takes ev errands (.ok b) w' := h

theorem takes_attempts {g : World → Except Cause α × World} {f : α → Eval β}
    (h : ((attempts g >>= f) w).Takes ev errands (.ok b) w') :
    ∃ a w₁, g w = (.ok a, w₁) ∧ (f a w₁).Takes ev errands (.ok b) w' := by
  obtain ⟨first, rest, a, w₁, rfl, hfirst, hrest⟩ := h.of_andThen
  rw [attempts] at hfirst
  split at hfirst
  next a' w' heq =>
    cases hfirst
    exact ⟨a, w₁, heq, hrest⟩
  · cases hfirst

theorem takes_ask {task : Task} {f : Value → Eval β} (h : ((ask task >>= f) w).Takes ev errands (.ok b) w') :
    ∃ value w₁ rest, errands = ⟨task, w, .ok value, w₁⟩ :: rest ∧ (f value w₁).Takes ev rest (.ok b) w' := by
  cases h with
  | @ask _ _ w₁ _ _ _ given rest _ hperform hrest =>
    cases given with
    | ok value => exact ⟨value, w₁, rest, rfl, hrest⟩
    | error e => cases hrest

end Eval

namespace Context

variable {β : Type} {ev : Evaluator} {c : Context} {errands : List Errand} {w w' : World} {b : β} {n : NodeId}
  {s : ScopeId}

theorem takes_require {key : String} {f : NodeId → Eval β}
    (h : ((c.require n key >>= f) w).Takes ev errands (.ok b) w') :
    ∃ child, c.tree.child? n key = some child ∧ (f child w).Takes ev errands (.ok b) w' := by
  rw [require] at h
  split at h
  next child hchild => exact ⟨child, hchild, h⟩
  · cases h

theorem takes_operator {f : String → Eval β} (h : ((c.operator n >>= f) w).Takes ev errands (.ok b) w') :
    ∃ op, c.tree.text? n "operator" = some op ∧ (f op w).Takes ev errands (.ok b) w' := by
  rw [operator] at h
  split at h
  next op hop => exact ⟨op, hop, h⟩
  · cases h

theorem takes_bind {value : Value} {binding : Binding}
    (h : (c.bind n value s binding w).Takes ev errands (.ok ()) w') :
    ∃ given, errands = [⟨.bind c.toActivation n value s binding, w, .ok given, w'⟩] := by
  obtain ⟨given, w₁, rest, rfl, hdone⟩ := Eval.takes_ask h
  obtain ⟨rfl, -, rfl⟩ := Eval.takes_pure hdone
  exact ⟨given, rfl⟩

theorem takes_bind_then {value : Value} {binding : Binding} {f : Unit → Eval β}
    (h : ((c.bind n value s binding >>= f) w).Takes ev errands (.ok b) w') :
    ∃ given w₁ rest, errands = ⟨.bind c.toActivation n value s binding, w, .ok given, w₁⟩ :: rest ∧
      (f () w₁).Takes ev rest (.ok b) w' := by
  obtain ⟨first, rest, a, w₁, rfl, hfirst, hrest⟩ := h.of_andThen
  obtain ⟨given, rfl⟩ := takes_bind hfirst
  exact ⟨given, w₁, rest, rfl, hrest⟩

/-- A key asks for an evaluation at most. -/
theorem takes_propertyKey {field key : String} (h : ((c.propertyKey n field s) w).Takes ev errands (.ok key) w') :
    Errand.Chain w errands w' ∧ ∀ errand ∈ errands, ∃ m, errand.task = .eval c.toActivation m s := by
  rw [propertyKey] at h
  obtain ⟨m, -, hkey⟩ := takes_require h
  cases hname : (if c.tree.flag n "computed" = true then none else c.tree.identifierName? m) with
  | some name =>
    rw [hname] at hkey
    obtain ⟨rfl, -, rfl⟩ := Eval.takes_pure hkey
    exact ⟨rfl, by simp⟩
  | none =>
    rw [hname] at hkey
    obtain ⟨value, w₁, rest, rfl, hread⟩ := Eval.takes_ask hkey
    cases hread
    exact ⟨⟨rfl, rfl⟩, by simp⟩

end Context

namespace Evaluator

variable {ev : Evaluator}

/-- A task that ends with a value of a step takes the errands of the step. -/
theorem takes_of_perform {α : Type} {steps : Nat} {task : Task} {w w' : World} {m : Eval α} {f : α → Value}
    {value : Value} (hcarry : ev.carryOut task w = (m w).andThen fun a w => .done (.ok (.value (f a))) w)
    (h : ev.perform steps task w = .ended (.ok value, w')) :
    ∃ errands a, (m w).Takes ev errands (.ok a) w' ∧ value = f a := by
  obtain ⟨result, hends, hvalue⟩ := ends_of_perform hcarry h
  obtain ⟨errands, htakes⟩ := hends.exists_takes
  cases result with
  | error e => cases hvalue
  | ok a =>
    cases hvalue
    exact ⟨errands, a, htakes, rfl⟩

/-- An evaluation that ends with a value takes the errands of the rule for the node. -/
theorem takes_of_eval {steps : Nat} {a : Activation} {n : NodeId} {s : ScopeId} {w w' : World} {value : Value}
    {rule : Rule} (hrule : ev.rules.get? (a.tree.tag n) = some rule)
    (h : ev.perform steps (.eval a n s) w = .ended (.ok value, w')) :
    ∃ errands, (rule.meaning ev.host (ev.context a) n s w).Takes ev errands (.ok value) w' := by
  obtain ⟨errands, result, htakes, rfl⟩ := takes_of_perform (m := ev.evalNode a n s) (f := id) rfl h
  rw [evalNode, hrule] at htakes
  exact ⟨errands, htakes.of_raisedAt⟩

/-- If the rule for a node takes errands, its evaluation ends. -/
theorem eval_of_takes {a : Activation} {n : NodeId} {s : ScopeId} {w w' : World} {value : Value} {rule : Rule}
    {errands : List Errand} (hrule : ev.rules.get? (a.tree.tag n) = some rule)
    (h : (rule.meaning ev.host (ev.context a) n s w).Takes ev errands (.ok value) w') :
    ∃ steps, ev.perform steps (.eval a n s) w = .ended (.ok value, w') := by
  have hnode : (ev.evalNode a n s w).Takes ev errands (.ok value) w' := by
    rw [evalNode, hrule]
    exact h.raisedAt n
  exact Computation.Takes.run (hnode.andThen (.done _ w'))

end Evaluator

end ScriptCore

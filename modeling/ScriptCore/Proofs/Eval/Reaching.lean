import ScriptCore.Proofs.Eval.Asking
import ScriptCore.Proofs.Eval.Effect

/-!
# What a computation comes to ask for

A computation need not end for something to be said of the way that it has gone: the errands up to the moment
at which it asks for a certain task (`Computation.Reaches`). That moment is traced back through the steps that
the computation was built of, as its end is, and all that happened to the world up to then are effects
(`Computation.Goes.reaches`).
-/
namespace ScriptCore

namespace Computation

variable {α β : Type} {ev : Evaluator} {errands : List Errand} {task : Task} {w w' : World}

/-- On its way, by way of errands, a computation comes to ask for a task in a world. -/
inductive Reaches (ev : Evaluator) : Computation α → List Errand → Task → World → Prop
  | here (task : Task) (w : World) (resume : Except Abrupt Value → World → Computation α) :
    Reaches ev (.ask task w resume) [] task w
  | later {task next : Task} {w w₁ w' : World} {resume : Except Abrupt Value → World → Computation α}
    {used : Nat} {given : Except Abrupt Value} {errands : List Errand}
    (hperform : ev.perform used task w = .ended (given, w₁))
    (hrest : Reaches ev (resume given w₁) errands next w') :
    Reaches ev (.ask task w resume) (⟨task, w, given, w₁⟩ :: errands) next w'

/-- Of two steps in a row, the first one asks for the task, or comes to a value from which the second one does. -/
theorem Reaches.of_andThen {c : Computation α} {f : α → World → Computation β}
    (h : (c.andThen f).Reaches ev errands task w') :
    c.Reaches ev errands task w' ∨ ∃ first rest a w₁, errands = first ++ rest ∧
      c.Takes ev first (.ok a) w₁ ∧ (f a w₁).Reaches ev rest task w' := by
  induction c generalizing errands with
  | done outcome w =>
    cases outcome with
    | ok a => exact Or.inr ⟨[], errands, a, w, rfl, .done _ w, h⟩
    | error e => cases h
  | ask asked w resume ih =>
    cases h with
    | here => exact Or.inl (.here _ _ _)
    | later hperform hrest =>
      obtain hfirst | ⟨first, rest, a, w₁, rfl, hfirst, hsecond⟩ := ih _ _ hrest
      · exact Or.inl (.later hperform hfirst)
      · exact Or.inr ⟨_ :: first, rest, a, w₁, rfl, .ask hperform hfirst, hsecond⟩
  | brokenOff => cases h

theorem Reaches.of_caught {c : Computation α} (h : c.caught.Reaches ev errands task w') :
    c.Reaches ev errands task w' := by
  induction c generalizing errands with
  | done outcome w => cases h
  | ask asked w resume ih =>
    cases h with
    | here => exact .here _ _ _
    | later hperform hrest => exact .later hperform (ih _ _ hrest)
  | brokenOff => cases h

theorem Reaches.of_raisedAt {c : Computation α} {n : NodeId} (h : (c.raisedAt n).Reaches ev errands task w') :
    c.Reaches ev errands task w' := by
  induction c generalizing errands with
  | done outcome w => cases outcome <;> cases h
  | ask asked w resume ih =>
    cases h with
    | here => exact .here _ _ _
    | later hperform hrest => exact .later hperform (ih _ _ hrest)
  | brokenOff => cases h

/-! ## Where a computation begins -/

/-- A computation changes nothing before it asks for a task, or comes to a value. -/
def StartsIn (w : World) : Computation α → Prop
  | .done (.ok _) w' => w' = w
  | .done (.error _) _ => True
  | .ask _ w' _ => w' = w
  | .brokenOff => True

theorem StartsIn.andThen {c : Computation α} {f : α → World → Computation β} (h : c.StartsIn w)
    (hf : ∀ a, (f a w).StartsIn w) : (c.andThen f).StartsIn w := by
  cases c with
  | done outcome w' =>
    cases outcome with
    | ok a =>
      obtain rfl : w' = w := h
      exact hf a
    | error e => trivial
  | ask asked w' resume => exact h
  | brokenOff => trivial

/-- So the first of its errands starts there, or it asks for the task there. -/
theorem Reaches.first {c : Computation α} (h : c.Reaches ev errands task w') (hstart : c.StartsIn w) :
    (errands.map Errand.start ++ [w']).head? = some w := by
  cases h with
  | here => exact congrArg some hstart
  | later _ _ => exact congrArg some hstart

end Computation

/-! ## Effects on the way -/

namespace Evaluator

variable {ev : Evaluator}

/-- Performing a task has effects. -/
theorem effects_of_perform (hrules : ev.rules = RuleTable.default)
    (hresolver : ev.resolver.rules = Hoist.defaultRules) {used : Nat} {task : Task} {w w' : World}
    {outcome : Except Abrupt Value} (h : ev.perform used task w = .ended (outcome, w')) :
    Relation.ReflTransGen (World.Effect ev) w w' := by
  have hstretches : ∀ s ∈ ev.stretchesOf used task w, Relation.ReflTransGen (World.Effect ev) s.start s.stop :=
    stretches_effects hrules hresolver
  have hpairwise := pairwise_worlds hstretches
  have hmem := mem_worlds_of_ended h
  obtain heq | hin := List.mem_cons.mp hmem
  · rw [heq]
  · exact (List.pairwise_cons.mp hpairwise).1 w' hin

end Evaluator

namespace Computation

variable {α : Type} {ev : Evaluator} {c : Computation α} {errands : List Errand} {task : Task} {w₀ w' : World}
  {asked : Task → Prop} {ok : α → Prop}

/-- What has effects only leads by effects to where it asks for a task, from its start and from that of each
errand. -/
theorem Goes.reaches (h : c.Goes (ev.effects asked) ok w₀) (hrules : ev.rules = RuleTable.default)
    (hresolver : ev.resolver.rules = Hoist.defaultRules) (hreaches : c.Reaches ev errands task w') :
    Relation.ReflTransGen (World.Effect ev) w₀ w' ∧
      ∀ errand ∈ errands, Relation.ReflTransGen (World.Effect ev) errand.start w' := by
  induction hreaches generalizing w₀ with
  | here task w resume => exact ⟨h.1, by simp⟩
  | later hperform _ ih =>
    obtain ⟨hmoves, -, hresume⟩ := h
    obtain ⟨hrest, hstarts⟩ := ih (hresume _ _)
    have hfrom := (Evaluator.effects_of_perform hrules hresolver hperform).trans hrest
    exact ⟨hmoves.trans hfrom, List.forall_mem_cons.mpr ⟨hfrom, hstarts⟩⟩

/-- It does so too from the world that it goes on in after some errands. -/
theorem Goes.reaches_next (h : c.Goes (ev.effects asked) ok w₀) (hrules : ev.rules = RuleTable.default)
    (hresolver : ev.resolver.rules = Hoist.defaultRules) {before after : List Errand} {w : World}
    (hreaches : c.Reaches ev (before ++ after) task w')
    (hnext : (after.map Errand.start ++ [w']).head? = some w) :
    Relation.ReflTransGen (World.Effect ev) w w' := by
  cases after with
  | nil =>
    cases hnext
    exact .refl
  | cons errand after =>
    cases hnext
    exact (h.reaches hrules hresolver hreaches).2 errand (by simp)

end Computation

end ScriptCore

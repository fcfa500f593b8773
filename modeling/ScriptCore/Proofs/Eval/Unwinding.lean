import ScriptCore.Proofs.Eval.Equivalence
import ScriptCore.Proofs.Eval.Passing

/-!
# Unwinding through try

A `try` runs its block; its handler then runs if a value was thrown there, which binds its parameter and runs the
statements of its body (`Evaluator.RunsHandler`); its finalizer runs once after both, and replaces their outcome if
it ends abruptly itself (`Evaluator.Tries`). So the abrupt end of a statement
goes outward through the statements of its activation that hold it (`Level`): each of them only runs the
finalizer that is still to run (`Evaluator.Unwinds`), up to the first one that receives the end
(`Evaluator.Receives`). That is said for every stack of them in `Evaluator.abrupt_ends_unwind`.
-/
namespace ScriptCore

namespace Evaluator

/-- What the handler of the `try` at `n` makes of the outcome of its block: it runs for a thrown value, and for
nothing else. -/
inductive Handles (ev : Evaluator) (a : Activation) (n : NodeId) (s : ScopeId) :
    Except Abrupt Value → World → List Errand → Except Abrupt Value → World → Prop
  | caught {handler : NodeId} {thrown : Value} {w w' : World} {handling : List Errand}
    {outcome : Except Abrupt Value} (hhandler : a.tree.child? n "handler" = some handler)
    (h : ((ev.context a).catchClause handler thrown s w).Takes ev handling outcome w') :
    Handles ev a n s (.error (.threw thrown)) w handling outcome w'
  | passed {given : Except Abrupt Value} {w : World}
    (h : ∀ thrown, given = .error (.threw thrown) → a.tree.child? n "handler" = none) :
    Handles ev a n s given w [] given w

/-- What the finalizer of the `try` at `n` makes of the outcome so far: it runs once, and an abrupt end of it
replaces that outcome. -/
inductive Finalizes (ev : Evaluator) (a : Activation) (n : NodeId) (s : ScopeId) (given : Except Abrupt Value)
    (w : World) : List Errand → Except Abrupt Value → World → Prop
  | none (h : a.tree.child? n "finalizer" = none) : Finalizes ev a n s given w [] given w
  | kept {finalizer : NodeId} {value : Value} {w' : World} (hfinalizer : a.tree.child? n "finalizer" = some finalizer)
    (h : Errand.Performed ev ⟨.eval a finalizer s, w, .ok value, w'⟩) :
    Finalizes ev a n s given w [⟨.eval a finalizer s, w, .ok value, w'⟩] given w'
  | replaced {finalizer : NodeId} {e : Abrupt} {w' : World}
    (hfinalizer : a.tree.child? n "finalizer" = some finalizer)
    (h : Errand.Performed ev ⟨.eval a finalizer s, w, .error e, w'⟩) :
    Finalizes ev a n s given w [⟨.eval a finalizer s, w, .error e, w'⟩] (.error e) w'

/-- A `try` whose block was entered: the run of the block, what its handler did, and the run of its finalizer. -/
structure Attempt (ev : Evaluator) (a : Activation) (n : NodeId) (s : ScopeId) (block : Errand)
    (handling finalizing : List Errand) (outcome : Except Abrupt Value) (w' : World) : Prop where
  task : ∃ child, a.tree.child? n "block" = some child ∧ block.task = .eval a child s
  performed : block.Performed ev
  ends : ∃ given w₁, ev.Handles a n s block.outcome block.stop handling given w₁ ∧
    ev.Finalizes a n s given w₁ finalizing outcome w'

/-- How a `try` is performed. A failure of its own, such as of a handler without a body, is placed at the
node. -/
inductive Tries (ev : Evaluator) (a : Activation) (n : NodeId) (s : ScopeId) (w : World) :
    List Errand → Except Abrupt Value → World → Prop
  | blockless (h : a.tree.child? n "block" = none) : Tries ev a n s w []
    (.error ((Abrupt.of (.malformedNode (a.tree.tag n) "missing `block`")).raisedAt n)) w
  | entered {block : Errand} {handling finalizing : List Errand} {outcome : Except Abrupt Value} {w' : World}
    (hstart : block.start = w) (h : ev.Attempt a n s block handling finalizing outcome w') :
    Tries ev a n s w (block :: (handling ++ finalizing)) (outcome.mapError (·.raisedAt n)) w'

variable {ev : Evaluator} {a : Activation} {n : NodeId} {s : ScopeId} {w w' : World} {errands : List Errand}
  {outcome : Except Abrupt Value}

/-- After the block comes the handler. -/
theorem takes_handled_iff {given : Except Abrupt Value} :
    ((match given, a.tree.child? n "handler" with
      | .error (.threw thrown), some handler => (ev.context a).catchClause handler thrown s
      | .ok value, _ => pure value
      | .error other, _ => Eval.abrupt other : Eval Value) w).Takes ev errands outcome w' ↔
      ev.Handles a n s given w errands outcome w' := by
  have hdone {given : Except Abrupt Value}
      (hpassed : ∀ thrown, given = .error (.threw thrown) → a.tree.child? n "handler" = none) :
      (Computation.done given w).Takes ev errands outcome w' ↔ ev.Handles a n s given w errands outcome w' := by
    rw [Computation.takes_done_iff]
    constructor
    · rintro ⟨rfl, rfl, rfl⟩
      exact .passed hpassed
    · intro h
      cases h with
      | caught hhandler _ => cases hhandler.symm.trans (hpassed _ rfl)
      | passed _ => exact ⟨rfl, rfl, rfl⟩
  cases hhandler : a.tree.child? n "handler" with
  | none => rcases given with (_ | _ | _ | _ | thrown) | value <;> exact hdone fun _ _ => hhandler
  | some handler =>
    rcases given with (_ | _ | _ | _ | thrown) | value
    case error.threw =>
      constructor
      · exact .caught hhandler
      · intro h
        cases h with
        | caught hcaught h =>
          cases hcaught.symm.trans hhandler
          exact h
        | passed hpassed => cases hhandler.symm.trans (hpassed thrown rfl)
    all_goals exact hdone nofun

theorem takes_guardedBlock_iff {child : NodeId} :
    ((ev.context a).guardedBlock n child s w).Takes ev errands outcome w' ↔
      ∃ block handling, errands = block :: handling ∧ block.task = .eval a child s ∧ block.start = w ∧
        block.Performed ev ∧ ev.Handles a n s block.outcome block.stop handling outcome w' := by
  rw [Context.guardedBlock, Eval.takes_catching_iff]
  constructor
  · rintro ⟨first, rest, given, w₁, rfl, hblock, hrest⟩
    obtain ⟨rfl, hperformed⟩ := Context.takes_eval_iff.mp hblock
    exact ⟨_, rest, rfl, rfl, rfl, hperformed, takes_handled_iff.mp hrest⟩
  · rintro ⟨⟨task, start, given, w₁⟩, handling, rfl, rfl, rfl, hperformed, hhandles⟩
    exact ⟨[_], handling, given, w₁, rfl, Context.takes_eval_iff.mpr ⟨rfl, hperformed⟩,
      takes_handled_iff.mpr hhandles⟩

/-- After the handler comes the finalizer. -/
theorem takes_finalized_iff {given : Except Abrupt Value} :
    ((match a.tree.child? n "finalizer" with
      | some finalizer => do
        let _ ← (ev.context a).eval finalizer s
        Context.tryStatement.resume given
      | none => Context.tryStatement.resume given : Eval Value) w).Takes ev errands outcome w' ↔
      ev.Finalizes a n s given w errands outcome w' := by
  have hresume (w : World) : Context.tryStatement.resume given w = .done given w := by cases given <;> rfl
  cases hfinalizer : a.tree.child? n "finalizer" with
  | none =>
    simp only [hresume, Computation.takes_done_iff]
    constructor
    · rintro ⟨rfl, rfl, rfl⟩
      exact .none hfinalizer
    · intro h
      cases h with
      | none _ => exact ⟨rfl, rfl, rfl⟩
      | kept h _ => cases hfinalizer.symm.trans h
      | replaced h _ => cases hfinalizer.symm.trans h
  | some finalizer =>
    constructor
    · intro h
      obtain ⟨e, rfl, hrun⟩ | ⟨first, rest, value, w₁, rfl, hrun, hrest⟩ := Computation.takes_andThen_iff.mp h
      · obtain ⟨rfl, hperformed⟩ := Context.takes_eval_iff.mp hrun
        exact .replaced hfinalizer hperformed
      · obtain ⟨rfl, hperformed⟩ := Context.takes_eval_iff.mp hrun
        rw [hresume] at hrest
        obtain ⟨rfl, rfl, rfl⟩ := Computation.takes_done_iff.mp hrest
        exact .kept hfinalizer hperformed
    · intro h
      refine Computation.takes_andThen_iff.mpr ?_
      cases h with
      | none h => cases hfinalizer.symm.trans h
      | kept h hperformed =>
        cases hfinalizer.symm.trans h
        refine Or.inr ⟨[_], [], _, w', rfl, Context.takes_eval_iff.mpr ⟨rfl, hperformed⟩, ?_⟩
        rw [hresume]
        exact .done _ _
      | replaced h hperformed =>
        cases hfinalizer.symm.trans h
        exact Or.inl ⟨_, rfl, Context.takes_eval_iff.mpr ⟨rfl, hperformed⟩⟩

/-- **How a `try` is performed.** -/
theorem performs_try_iff (hrule : ev.rules.get? (a.tree.tag n) = some .tryStatement) :
    ev.Performs (.eval a n s) w errands outcome w' ↔ ev.Tries a n s w errands outcome w' := by
  have hmeaning : Rule.meaning ev.host .tryStatement (ev.context a) n s = (ev.context a).tryStatement n s := rfl
  rw [performs_eval_iff hrule, hmeaning]
  have htree : (ev.context a).tree = a.tree := rfl
  simp only [Context.tryStatement, Context.takes_require_iff, Eval.takes_catching_iff, htree,
    takes_guardedBlock_iff]
  constructor
  · rintro ⟨given, rfl, ⟨child, hchild, first, finalizing, handled, w₁, rfl,
      ⟨block, handling, rfl, htask, hstart, hperformed, hhandles⟩, hfinalizes⟩ | ⟨hnone, rfl, rfl, rfl⟩⟩
    · exact .entered hstart
        ⟨⟨child, hchild, htask⟩, hperformed, handled, w₁, hhandles, takes_finalized_iff.mp hfinalizes⟩
    · exact .blockless hnone
  · intro h
    cases h with
    | blockless hnone => exact ⟨_, rfl, Or.inr ⟨hnone, rfl, rfl, rfl⟩⟩
    | @entered block handling finalizing given _ hstart h =>
      obtain ⟨⟨child, hchild, htask⟩, hperformed, handled, w₁, hhandles, hfinalizes⟩ := h
      exact ⟨given, rfl, Or.inl ⟨child, hchild, block :: handling, finalizing, handled, w₁, rfl,
        ⟨block, handling, rfl, htask, hstart, hperformed, hhandles⟩, takes_finalized_iff.mpr hfinalizes⟩⟩

/-- A `try` that asks for anything has entered its block. -/
theorem Tries.attempt (h : ev.Tries a n s w errands outcome w') (hne : errands ≠ []) :
    ∃ block handling finalizing given, errands = block :: (handling ++ finalizing) ∧
      ev.Attempt a n s block handling finalizing given w' ∧ outcome = given.mapError (·.raisedAt n) := by
  cases h with
  | blockless _ => exact absurd rfl hne
  | entered _ h => exact ⟨_, _, _, _, rfl, h, rfl⟩

theorem Finalizes.placed {e : Abrupt} (h : ev.Finalizes a n s (.error e) w errands outcome w') (hplaced : e.Placed) :
    ∃ e', outcome = .error e' ∧ e'.Placed := by
  cases h with
  | none _ => exact ⟨e, rfl, hplaced⟩
  | kept _ _ => exact ⟨e, rfl, hplaced⟩
  | replaced _ hperformed => exact ⟨_, rfl, placed_of_performed hperformed⟩

/-- After a part of a `try` has ended abruptly, only the finalizer runs, unless the handler receives that end, or
it is the finalizer that ended so. -/
theorem Attempt.unwinds {block inner : Errand} {handling finalizing before after : List Errand} {e : Abrupt}
    (h : ev.Attempt a n s block handling finalizing outcome w')
    (heq : before ++ inner :: after = block :: (handling ++ finalizing)) (hinner : inner.outcome = .error e)
    (hplaced : e.Placed)
    (hunhandled : before = [] → ∀ thrown, e = .threw thrown → a.tree.child? n "handler" = none) :
    ev.Finalizes a n s (.error e) inner.stop after outcome w' ∨
      (before ≠ [] ∧ after = [] ∧ w' = inner.stop ∧ outcome = .error e ∧
        ∃ finalizer, a.tree.child? n "finalizer" = some finalizer ∧ inner.task = .eval a finalizer s) := by
  obtain ⟨-, -, given, w₁, hhandles, hfinalizes⟩ := h
  cases before with
  | nil =>
    -- the block has ended so
    cases heq
    rw [hinner] at hhandles
    cases hhandles with
    | caught hhandler _ => cases hhandler.symm.trans (hunhandled rfl _ rfl)
    | passed _ => exact Or.inl hfinalizes
  | cons first before =>
    injection heq with _ heq
    have hfinalizer (within : List Errand) (hwithin : finalizing = within ++ inner :: after) :
        after = [] ∧ w' = inner.stop ∧ outcome = .error e ∧
          ∃ finalizer, a.tree.child? n "finalizer" = some finalizer ∧ inner.task = .eval a finalizer s := by
      rw [hwithin] at hfinalizes
      cases within with
      | nil =>
        cases hfinalizes with
        | kept _ _ => cases hinner
        | replaced hchild _ =>
          cases hinner
          exact ⟨rfl, rfl, rfl, _, hchild, rfl⟩
      | cons errand within =>
        generalize hlist : errand :: within ++ inner :: after = list at hfinalizes
        cases hfinalizes <;> simp at hlist
    obtain ⟨later, hhandling, hlater⟩ | ⟨within, -, hwithin⟩ := List.append_eq_append_iff.mp heq
    · cases later with
      | nil => exact Or.inr ⟨List.cons_ne_nil _ _, hfinalizer [] hlater.symm⟩
      | cons errand later =>
        -- the handler has ended so
        cases hlater
        generalize block.outcome = reached at hhandles
        cases hhandles with
        | caught _ hclause =>
          rw [hhandling] at hclause
          have hpasses := @Context.passes_catchClause (fun _ => False) (ev.context a)
          obtain ⟨rfl, rfl, rfl⟩ := (hpasses _ _ s).takes hclause hinner hplaced not_false
          exact Or.inl hfinalizes
        | passed _ => simp at hhandling
    · exact Or.inr ⟨List.cons_ne_nil _ _, hfinalizer within hwithin⟩

/-! ## Levels -/

end Evaluator

/-- A statement within one that holds it: its run, and what was done for the outer one before and after. -/
structure Level where
  inner : Errand
  before : List Errand
  after : List Errand
  outer : Errand

namespace Evaluator

/-- The tasks of an activation that hold statements. -/
inductive Holder (ev : Evaluator) (a : Activation) : Task → Prop
  | part {task : Task} {receives : Abrupt → Prop} (hframe : ev.Frame a task receives) : Holder ev a task
  | guarded {n : NodeId} {s : ScopeId} (hrule : ev.rules.get? (a.tree.tag n) = some .tryStatement) :
    Holder ev a (.eval a n s)

/-- The outer statement of a level is one of the activation, and holds the run of the inner one. -/
structure Encloses (ev : Evaluator) (a : Activation) (level : Level) : Prop where
  performs : ev.Performs level.outer.task level.outer.start (level.before ++ level.inner :: level.after)
    level.outer.outcome level.outer.stop
  holder : ev.Holder a level.outer.task

/-- A stack of statements around one, the innermost first. -/
def Nested (ev : Evaluator) (a : Activation) : Errand → List Level → Prop
  | _, [] => True
  | inner, level :: rest => level.inner = inner ∧ ev.Encloses a level ∧ Nested ev a level.outer rest

/-- The ends of the inner statement that a level receives: what was thrown goes to the handler of a `try` if it
was the block that ended so. -/
inductive Receives (ev : Evaluator) (a : Activation) (level : Level) : Abrupt → Prop
  | part {receives : Abrupt → Prop} {e : Abrupt} (hframe : ev.Frame a level.outer.task receives) (he : receives e) :
    Receives ev a level e
  | handler {n handler : NodeId} {s : ScopeId} {thrown : Value} (htask : level.outer.task = .eval a n s)
    (hrule : ev.rules.get? (a.tree.tag n) = some .tryStatement)
    (hhandler : a.tree.child? n "handler" = some handler) (hblock : level.before = []) :
    Receives ev a level (.threw thrown)

/-- How an end `e` that a level does not receive leaves it, as `e'`: nothing is done on the way out but the
finalizer of a `try`, once, unless it was the one that ended so. -/
inductive Unwinds (ev : Evaluator) (a : Activation) (level : Level) (e : Abrupt) : Abrupt → Prop
  | part {receives : Abrupt → Prop} (hframe : ev.Frame a level.outer.task receives) (hafter : level.after = [])
    (hstop : level.outer.stop = level.inner.stop) : Unwinds ev a level e e
  | guarded {n : NodeId} {s : ScopeId} {e' : Abrupt} (htask : level.outer.task = .eval a n s)
    (hrule : ev.rules.get? (a.tree.tag n) = some .tryStatement)
    (h : ev.Finalizes a n s (.error e) level.inner.stop level.after (.error e') level.outer.stop) :
    Unwinds ev a level e e'
  | finalizer {n finalizer : NodeId} {s : ScopeId} (htask : level.outer.task = .eval a n s)
    (hrule : ev.rules.get? (a.tree.tag n) = some .tryStatement)
    (hfinalizer : a.tree.child? n "finalizer" = some finalizer) (hinner : level.inner.task = .eval a finalizer s)
    (hbefore : level.before ≠ []) (hafter : level.after = []) (hstop : level.outer.stop = level.inner.stop) :
    Unwinds ev a level e e

/-- How a `try` at a level receives what its block has thrown: its handler runs, and then its finalizer. -/
inductive Catches (ev : Evaluator) (a : Activation) (level : Level) (thrown : Value) : Prop
  | handler {n handler : NodeId} {s : ScopeId} {handling finalizing : List Errand} {given : Except Abrupt Value}
    {outcome : Except Abrupt Value} {w₁ : World} (htask : level.outer.task = .eval a n s)
    (hhandler : a.tree.child? n "handler" = some handler) (hafter : level.after = handling ++ finalizing)
    (hhandling : ((ev.context a).catchClause handler thrown s level.inner.stop).Takes ev handling given w₁)
    (hfinalizing : ev.Finalizes a n s given w₁ finalizing outcome level.outer.stop)
    (houtcome : level.outer.outcome = outcome.mapError (·.raisedAt n)) : Catches ev a level thrown

variable {ev : Evaluator} {a : Activation} {level : Level} {e : Abrupt} {n : NodeId} {s : ScopeId} {w w' : World}
  {errands : List Errand} {outcome : Except Abrupt Value}

/-- One level passes on what it does not receive. -/
theorem Encloses.unwinds (h : ev.Encloses a level) (hinner : level.inner.outcome = .error e) (hplaced : e.Placed)
    (hreceives : ¬ev.Receives a level e) :
    ∃ e', ev.Unwinds a level e e' ∧ level.outer.outcome = .error e' ∧ e'.Placed := by
  have hholder := h.holder
  generalize htask : level.outer.task = task at hholder
  cases hholder with
  | part hframe =>
    rw [← htask] at hframe
    obtain ⟨hafter, houtcome, hstop⟩ :=
      passed_on hframe h.performs hinner hplaced fun he => hreceives (.part hframe he)
    exact ⟨e, .part hframe hafter hstop, houtcome, hplaced⟩
  | @guarded n s hrule =>
    have hperforms := h.performs
    rw [htask, performs_try_iff hrule] at hperforms
    obtain ⟨block, handling, finalizing, given, herrands, hattempt, houtcome⟩ := hperforms.attempt (by simp)
    have hunhandled (hbefore : level.before = []) (thrown : Value) (heq : e = .threw thrown) :
        a.tree.child? n "handler" = none := by
      refine Option.eq_none_iff_forall_ne_some.mpr fun handler hhandler => hreceives ?_
      rw [heq]
      exact .handler htask hrule hhandler hbefore
    obtain hfinalizes | ⟨hbefore, hafter, hstop, rfl, finalizer, hfinalizer, htask'⟩ :=
      hattempt.unwinds herrands hinner hplaced hunhandled
    · obtain ⟨e', rfl, hplaced'⟩ := hfinalizes.placed hplaced
      exact ⟨e', .guarded htask hrule hfinalizes, houtcome.trans (congrArg Except.error (hplaced' n)), hplaced'⟩
    · exact ⟨e, .finalizer htask hrule hfinalizer htask' hbefore hafter hstop,
        houtcome.trans (congrArg Except.error (hplaced n)), hplaced⟩

/-- A `try` whose block has thrown runs its handler. -/
theorem Encloses.catches {n handler : NodeId} {s : ScopeId} {thrown : Value} (h : ev.Encloses a level)
    (hinner : level.inner.outcome = .error (.threw thrown)) (htask : level.outer.task = .eval a n s)
    (hrule : ev.rules.get? (a.tree.tag n) = some .tryStatement)
    (hhandler : a.tree.child? n "handler" = some handler) (hblock : level.before = []) :
    ev.Catches a level thrown := by
  have hperforms := h.performs
  rw [htask, hblock, performs_try_iff hrule] at hperforms
  obtain ⟨block, handling, finalizing, outcome, herrands, hattempt, houtcome⟩ := hperforms.attempt (by simp)
  obtain ⟨hinner', hafter⟩ := List.cons.inj herrands
  obtain ⟨-, -, given, w₁, hhandles, hfinalizes⟩ := hattempt
  rw [← hinner', hinner] at hhandles
  cases hhandles with
  | caught hchild hclause =>
    cases hchild.symm.trans hhandler
    exact .handler htask hhandler hafter hclause hfinalizes houtcome
  | passed hnone => cases hhandler.symm.trans (hnone thrown rfl)

/-- What a level receives is a `break`, a `continue`, or what was thrown. -/
theorem Receives.exit (h : ev.Receives a level e) : Context.LoopReceives e ∨ ∃ thrown, e = .threw thrown := by
  cases h with
  | part hframe he => exact Or.inl (hframe.exit he)
  | handler => exact Or.inr ⟨_, rfl⟩

theorem Finalizes.chain {given : Except Abrupt Value} (h : ev.Finalizes a n s given w errands outcome w') :
    Errand.Chain w errands w' := by
  cases h with
  | none _ => rfl
  | kept _ _ => exact ⟨rfl, rfl⟩
  | replaced _ _ => exact ⟨rfl, rfl⟩

/-- A finalizer starts where the inner statement has left off. -/
theorem Unwinds.chain {e' : Abrupt} (h : ev.Unwinds a level e e') :
    Errand.Chain level.inner.stop level.after level.outer.stop := by
  cases h with
  | part _ hafter hstop =>
    rw [hafter]
    exact hstop
  | guarded _ _ h => exact h.chain
  | finalizer _ _ _ _ _ hafter hstop =>
    rw [hafter]
    exact hstop

/-- The statement that is left last when a stack of levels is left. -/
def outermost (inner : Errand) : List Level → Errand
  | [] => inner
  | level :: rest => outermost level.outer rest

/-- How an abrupt end goes outward from a statement through a stack of levels: up to the first level that
receives it, or out of the activation. -/
structure Leaves (ev : Evaluator) (a : Activation) (inner : Errand) (lower upper : List Level) : Prop where
  /-- each level on the way unwinds, and ends abruptly itself -/
  unwinds : ∀ level ∈ lower, ∃ e e', level.inner.outcome = .error e ∧ ¬ev.Receives a level e ∧
    ev.Unwinds a level e e' ∧ level.outer.outcome = .error e'
  /-- from the end of the statement on, only the finalizers run, the innermost first -/
  chain : Errand.Chain inner.stop (lower.flatMap Level.after) (outermost inner lower).stop
  /-- the next level, if there is one, receives the end that has come to it; what was thrown is handled there -/
  received : ∀ level ∈ upper.head?, ∃ e, level.inner.outcome = .error e ∧ ev.Receives a level e ∧
    ∀ thrown, e = .threw thrown → ev.Catches a level thrown

theorem Receives.catches {thrown : Value} (h : ev.Receives a level (.threw thrown)) (hencloses : ev.Encloses a level)
    (hinner : level.inner.outcome = .error (.threw thrown)) : ev.Catches a level thrown := by
  generalize he : Abrupt.threw thrown = e at h
  cases h with
  | part hframe hreceives =>
    rw [← he] at hreceives
    obtain heq | heq := hframe.exit hreceives <;> cases heq
  | handler htask hrule hhandler hblock => exact hencloses.catches hinner htask hrule hhandler hblock

/-- An abrupt end goes outward level by level. -/
theorem Nested.leaves {levels : List Level} {inner : Errand} (h : ev.Nested a inner levels)
    (hinner : inner.outcome = .error e) (hplaced : e.Placed) :
    ∃ lower upper, levels = lower ++ upper ∧ ev.Leaves a inner lower upper := by
  induction levels generalizing inner e with
  | nil => exact ⟨[], [], rfl, by simp, rfl, by simp⟩
  | cons level rest ih =>
    obtain ⟨rfl, hencloses, hnested⟩ := h
    by_cases hreceives : ev.Receives a level e
    · refine ⟨[], level :: rest, rfl, by simp, rfl, ?_⟩
      rintro _ ⟨⟩
      refine ⟨e, hinner, hreceives, fun thrown heq => ?_⟩
      rw [heq] at hinner hreceives
      exact hreceives.catches hencloses hinner
    · obtain ⟨e', hunwinds, houter, hplaced'⟩ := hencloses.unwinds hinner hplaced hreceives
      obtain ⟨lower, upper, rfl, hleaves⟩ := ih hnested houter hplaced'
      refine ⟨level :: lower, upper, rfl, List.forall_mem_cons.mpr
        ⟨⟨e, e', hinner, hreceives, hunwinds, houter⟩, hleaves.unwinds⟩, ?_, hleaves.received⟩
      rw [List.flatMap_cons]
      exact hunwinds.chain.append hleaves.chain

/-! ## Handlers -/

/-- How the statements of a body are run in their scope, after the functions among them are bound. -/
inductive RunsBody (ev : Evaluator) (a : Activation) (body : NodeId) (s : ScopeId) (w : World) :
    List Errand → Except Abrupt Value → World → Prop
  | unbound {e : Abrupt} {w' : World}
    (h : (ev.context a).instantiateFunctions s (a.tree.present body "body") w = .done (.error e) w') :
    RunsBody ev a body s w [] (.error e) w'
  | ran {errands : List Errand} {outcome : Except Abrupt Value} {w₁ w' : World}
    (hfunctions : (ev.context a).instantiateFunctions s (a.tree.present body "body") w = .done (.ok ()) w₁)
    (h : ev.RunsEach a s (a.tree.present body "body") .undefined w₁ errands outcome w') :
    RunsBody ev a body s w errands outcome w'

/-- How a handler is performed for what was thrown: its parameter, if it has one, is bound to that in the scope of
the body, and then the statements of the body are run; if the binding fails, the handler has failed. -/
inductive RunsHandler (ev : Evaluator) (a : Activation) (handler body : NodeId) (thrown : Value) (own : ScopeId)
    (w : World) : List Errand → Except Abrupt Value → World → Prop
  | plain {errands : List Errand} {outcome : Except Abrupt Value} {w' : World}
    (hparam : a.tree.child? handler "param" = none) (h : ev.RunsBody a body own w errands outcome w') :
    RunsHandler ev a handler body thrown own w errands outcome w'
  | bound {param : NodeId} {value : Value} {errands : List Errand} {outcome : Except Abrupt Value} {w₁ w' : World}
    (hparam : a.tree.child? handler "param" = some param)
    (hperformed : Errand.Performed ev ⟨.bind a param thrown own (.declare own), w, .ok value, w₁⟩)
    (h : ev.RunsBody a body own w₁ errands outcome w') :
    RunsHandler ev a handler body thrown own w (⟨.bind a param thrown own (.declare own), w, .ok value, w₁⟩ :: errands)
      outcome w'
  | unbound {param : NodeId} {e : Abrupt} {w' : World} (hparam : a.tree.child? handler "param" = some param)
    (hperformed : Errand.Performed ev ⟨.bind a param thrown own (.declare own), w, .error e, w'⟩) :
    RunsHandler ev a handler body thrown own w [⟨.bind a param thrown own (.declare own), w, .error e, w'⟩]
      (.error e) w'

theorem takes_evalStatements_iff {body : NodeId} :
    ((ev.context a).evalStatements body "body" s w).Takes ev errands outcome w' ↔
      ev.RunsBody a body s w errands outcome w' := by
  have htree : (ev.context a).tree = a.tree := rfl
  rw [Context.evalStatements, Eval.takes_immediate_iff (Context.instantiateFunctions_done _ _ _ _)]
  simp only [takes_evalEach_iff, htree]
  constructor
  · rintro (⟨e, h, rfl, rfl⟩ | ⟨_, w₁, hfunctions, h⟩)
    · exact .unbound h
    · exact .ran hfunctions h
  · intro h
    cases h with
    | unbound h => exact Or.inl ⟨_, h, rfl, rfl⟩
    | ran hfunctions h => exact Or.inr ⟨_, _, hfunctions, h⟩

theorem takes_binding_iff {p : NodeId} {value : Value} {binding : Binding} {f : Eval Value} :
    (((ev.context a).bind p value s binding >>= fun _ => f) w).Takes ev errands outcome w' ↔
      (∃ e, outcome = .error e ∧ errands = [⟨.bind a p value s binding, w, .error e, w'⟩] ∧
        Errand.Performed ev ⟨.bind a p value s binding, w, .error e, w'⟩) ∨
      ∃ given w₁ rest, errands = ⟨.bind a p value s binding, w, .ok given, w₁⟩ :: rest ∧
        Errand.Performed ev ⟨.bind a p value s binding, w, .ok given, w₁⟩ ∧ (f w₁).Takes ev rest outcome w' := by
  have hask : ((ev.context a).bind p value s binding >>= fun _ => f) w = .ask (.bind a p value s binding) w
      fun given w => (Computation.done given w).andThen fun _ => f := by
    refine congrArg (Computation.ask _ w) (funext fun given => funext fun w => ?_)
    cases given <;> rfl
  rw [hask, Computation.takes_ask_iff]
  constructor
  · rintro ⟨used, given | given, w₁, rest, hperform, rfl, hrest⟩
    · obtain ⟨rfl, rfl, rfl⟩ := Computation.takes_done_iff.mp hrest
      exact Or.inl ⟨given, rfl, rfl, used, hperform⟩
    · exact Or.inr ⟨given, w₁, rest, rfl, ⟨used, hperform⟩, hrest⟩
  · rintro (⟨e, rfl, rfl, used, hperform⟩ | ⟨given, w₁, rest, rfl, ⟨used, hperform⟩, hrest⟩)
    · exact ⟨used, .error e, w', [], hperform, rfl, .done _ _⟩
    · exact ⟨used, .ok given, w₁, rest, hperform, rfl, hrest⟩

/-- After the scope of the body comes the parameter, and then the body. -/
theorem takes_handler_iff {handler body : NodeId} {thrown : Value} {own : ScopeId} :
    ((match a.tree.child? handler "param" with
      | some param => do
        (ev.context a).bind param thrown own (.declare own)
        (ev.context a).evalStatements body "body" own
      | none => (ev.context a).evalStatements body "body" own : Eval Value) w).Takes ev errands outcome w' ↔
      ev.RunsHandler a handler body thrown own w errands outcome w' := by
  cases hparam : a.tree.child? handler "param" with
  | none =>
    simp only [takes_evalStatements_iff]
    constructor
    · exact .plain hparam
    · intro h
      cases h with
      | plain _ h => exact h
      | bound hparam' | unbound hparam' => cases hparam.symm.trans hparam'
  | some param =>
    simp only [takes_binding_iff, takes_evalStatements_iff]
    constructor
    · rintro (⟨e, rfl, rfl, hperformed⟩ | ⟨value, w₁, rest, rfl, hperformed, h⟩)
      · exact .unbound hparam hperformed
      · exact .bound hparam hperformed h
    · intro h
      cases h with
      | plain hparam' => cases hparam.symm.trans hparam'
      | bound hparam' hperformed h =>
        cases hparam.symm.trans hparam'
        exact Or.inr ⟨_, _, _, rfl, hperformed, h⟩
      | unbound hparam' hperformed =>
        cases hparam.symm.trans hparam'
        exact Or.inl ⟨_, rfl, rfl, hperformed⟩

theorem takes_catchClause_iff {handler body : NodeId} {thrown : Value}
    (hbody : a.tree.child? handler "body" = some body) :
    ((ev.context a).catchClause handler thrown s w).Takes ev errands outcome w' ↔
      ∃ own w₁, (ev.context a).blockScope body s w = .done (.ok own) w₁ ∧
        ev.RunsHandler a handler body thrown own w₁ errands outcome w' := by
  have hdone : ∃ given w₁, (ev.context a).blockScope body s w = .done given w₁ := by
    obtain ⟨own, w₁, hscope⟩ := Site.blockScope_done (ev.context a) body s w
    exact ⟨_, _, hscope⟩
  rw [Context.catchClause, Context.takes_require_iff]
  constructor
  · rintro (⟨child, hchild, h⟩ | ⟨hnone, -⟩)
    · cases hbody.symm.trans hchild
      obtain ⟨e, hfailed, -⟩ | ⟨own, w₁, hscope, h⟩ := (Eval.takes_immediate_iff hdone).mp h
      · obtain ⟨own, w₁, hscope⟩ := Site.blockScope_done (ev.context a) body s w
        cases hscope.symm.trans hfailed
      · exact ⟨own, w₁, hscope, takes_handler_iff.mp h⟩
    · cases hbody.symm.trans hnone
  · rintro ⟨own, w₁, hscope, h⟩
    exact Or.inl ⟨body, hbody,
      (Eval.takes_immediate_iff hdone).mpr (Or.inr ⟨own, w₁, hscope, takes_handler_iff.mpr h⟩)⟩

/-- **Abrupt ends unwind through `try`.** A `try` is performed in just this way: its block runs, the handler only
after a value was thrown there, and the finalizer once after both. The handler binds its parameter to that value
and then runs the statements of its body in order. Through any stack of statements of one
activation, an abrupt end goes outward to the first level that receives it: what was thrown to the first
handler around the block that has thrown it, `break` and `continue` to the first loop or switch, and a failure or
`return` to none. Each level on the way only runs its finalizer, which may replace the end. -/
theorem abrupt_ends_unwind (ev : Evaluator) (a : Activation) :
    (∀ n s w outcome w', ev.rules.get? (a.tree.tag n) = some .tryStatement →
      ((∃ steps, ev.perform steps (.eval a n s) w = .ended (outcome, w')) ↔
        ∃ errands, ev.Tries a n s w errands outcome w')) ∧
    (∀ n s w errands outcome w', ev.rules.get? (a.tree.tag n) = some .tryStatement →
      (ev.Performs (.eval a n s) w errands outcome w' ↔ ev.Tries a n s w errands outcome w')) ∧
    (∀ handler body thrown s w errands outcome w', a.tree.child? handler "body" = some body →
      (((ev.context a).catchClause handler thrown s w).Takes ev errands outcome w' ↔
        ∃ own w₁, (ev.context a).blockScope body s w = .done (.ok own) w₁ ∧
          ev.RunsHandler a handler body thrown own w₁ errands outcome w')) ∧
    (∀ level e, ev.Receives a level e → (e = .broke ∨ e = .continued) ∨ ∃ thrown, e = .threw thrown) ∧
    ∀ inner m s levels e, inner.task = .eval a m s → inner.outcome = .error e → ev.Nested a inner levels →
      ∃ lower upper, levels = lower ++ upper ∧ ev.Leaves a inner lower upper := by
  refine ⟨fun n s w outcome w' hrule => ?_, fun n s w errands outcome w' hrule => performs_try_iff hrule,
    fun handler body thrown s w errands outcome w' => takes_catchClause_iff, fun level e h => h.exit,
    fun inner m s levels e htask hinner hnested => ?_⟩
  · rw [exists_perform_iff]
    exact exists_congr fun errands => performs_try_iff hrule
  · cases levels with
    | nil => exact ⟨[], [], rfl, by simp, rfl, by simp⟩
    | cons level rest =>
      have hperformed : level.inner.Performed ev :=
        hnested.2.1.performs.performed level.inner (List.mem_append_right _ List.mem_cons_self)
      obtain ⟨errands, hperforms⟩ := hperformed.performs
      rw [hnested.1, htask, hinner] at hperforms
      exact hnested.leaves hinner hperforms.placed

/-! ## A throw through two of them -/

/-- `try { try { throw true } finally { } } catch (e) { }` -/
def nestedTry : Json :=
  let block (body : List Json) : Json := .ofNode "BlockStatement" [("body", .array body)]
  let throw := Json.ofNode "ThrowStatement" [("argument", .ofNode "Literal" [("value", .bool true)])]
  let inner := Json.ofNode "TryStatement" [("block", block [throw]), ("handler", .null), ("finalizer", block [])]
  let clause := Json.ofNode "CatchClause" [("param", .ofName "e"), ("body", block [])]
  .ofNode "Program" [("body", .array [.ofNode "TryStatement"
    [("block", block [inner]), ("handler", clause), ("finalizer", .null)]])]

/-- Whether a run ends by throwing `true`. -/
def throwsTrue : Run (Except Abrupt Value × World) → Bool
  | .ended (.error (.threw (.bool true)), _) => true
  | _ => false

theorem exists_of_throwsTrue {run : Run (Except Abrupt Value × World)} (h : throwsTrue run = true) :
    ∃ w, run = .ended (.error (.threw (.bool true)), w) := by
  unfold throwsTrue at h
  split at h
  next w => exact ⟨w, rfl⟩
  · cases h

/-- Statements that end by throwing do so in one of them, which is the last one that is run. -/
theorem threw_of_evalEach {list : List NodeId} {last thrown : Value}
    (h : ((ev.context a).evalEach s last list w).Takes ev errands (.error (.threw thrown)) w') :
    ∃ before inner m, errands = before ++ [inner] ∧ inner.outcome = .error (.threw thrown) ∧ m ∈ list ∧
      inner.task = .eval a m s := by
  cases takes_evalEach_iff.mp h with
  | abrupt before after errands hstatements _ _ =>
    exact ⟨errands, _, _, rfl, rfl, by simp [hstatements], rfl⟩

/-- What was thrown has no place to be given. -/
theorem threw_of_raisedAt {given : Except Abrupt Value} {thrown : Value}
    (h : given.mapError (·.raisedAt n) = .error (.threw thrown)) : given = .error (.threw thrown) := by
  rcases given with (_ | _ | _ | _ | _) | value <;> cases h
  rfl

/-- A `try` that throws has entered its block. -/
theorem Tries.threw {thrown : Value} (h : ev.Tries a n s w errands (.error (.threw thrown)) w') :
    ∃ block handling finalizing, errands = block :: (handling ++ finalizing) ∧
      ev.Attempt a n s block handling finalizing (.error (.threw thrown)) w' := by
  generalize hend : Except.error (Abrupt.threw thrown) = ending at h
  cases h with
  | blockless _ => cases hend
  | entered _ h =>
    cases threw_of_raisedAt hend.symm
    exact ⟨_, _, _, rfl, h⟩

variable {errand : Errand} {thrown : Value}

/-- A level of a statement that has thrown, within one that ends so. -/
structure Throws (ev : Evaluator) (a : Activation) (thrown : Value) (errand : Errand) (child : NodeId)
    (level : Level) : Prop where
  outer : level.outer = errand
  encloses : ev.Encloses a level
  inner : level.inner.Performed ev ∧ level.inner.outcome = .error (.threw thrown)
  task : ∃ s, level.inner.task = .eval a child s

theorem Encloses.throws {child : NodeId} {inner : Errand} (before after : List Errand)
    (hperforms : ev.Performs errand.task errand.start (before ++ inner :: after) errand.outcome errand.stop)
    (hholder : ev.Holder a errand.task) (houtcome : inner.outcome = .error (.threw thrown))
    (htask : inner.task = .eval a child s) :
    ∃ level, ev.Throws a thrown errand child level :=
  ⟨⟨inner, before, after, errand⟩, rfl, ⟨hperforms, hholder⟩,
    ⟨hperforms.performed inner (List.mem_append_right _ List.mem_cons_self), houtcome⟩, s, htask⟩

/-- A block that ends by throwing has done so in a statement. -/
theorem exists_throws_of_block (hrule : ev.rules.get? (a.tree.tag n) = some .blockStatement)
    (htask : errand.task = .eval a n s) (hperformed : errand.Performed ev)
    (hthrew : errand.outcome = .error (.threw thrown)) :
    ∃ child ∈ a.tree.present n "body", ∃ level, ev.Throws a thrown errand child level := by
  obtain ⟨errands, hperforms⟩ := hperformed.performs
  have h := hperforms
  rw [htask, performs_eval_iff hrule] at h
  obtain ⟨given, heq, h⟩ := h
  cases threw_of_raisedAt (heq.symm.trans hthrew)
  have hholder : ev.Holder a errand.task := by
    rw [htask]
    exact .part (.node hrule .blockStatement)
  have hblock : Rule.meaning ev.host .blockStatement (ev.context a) n s = (ev.context a).blockStatement n s := rfl
  rw [hblock, Context.blockStatement] at h
  have hstatements {own : ScopeId} {w : World}
      (h : ((ev.context a).evalStatements n "body" own w).Takes ev errands (.error (.threw thrown)) errand.stop) :
      ∃ child ∈ a.tree.present n "body", ∃ level, ev.Throws a thrown errand child level := by
    obtain ⟨e, heq, hfunctions⟩ | ⟨first, rest, -, w₁, rfl, hfunctions, heach⟩ := Computation.takes_andThen_iff.mp h
    · cases heq
      obtain ⟨w₁, hdone | ⟨cause, hdone⟩⟩ := Context.instantiateFunctions_ends (ev.context a) own _ w
      · rw [hdone] at hfunctions
        cases hfunctions
      · rw [hdone] at hfunctions
        cases hfunctions
    · obtain ⟨before, inner, child, rfl, houtcome, hmem, hinner⟩ := threw_of_evalEach heach
      rw [← List.append_assoc] at hperforms
      exact ⟨child, hmem, Encloses.throws _ _ hperforms hholder houtcome hinner⟩
  obtain ⟨own, -, heq⟩ | ⟨-, heq⟩ := Site.openBlock_cases (ev.context a) n s _ errand.start
  · exact hstatements (heq ▸ h)
  · exact hstatements (heq ▸ h)

/-- A `try` with a finalizer alone that ends by throwing has done so in its block or in its finalizer. -/
theorem exists_throws_of_try {finalizer : NodeId} (hrule : ev.rules.get? (a.tree.tag n) = some .tryStatement)
    (hhandler : a.tree.child? n "handler" = none) (hfinalizer : a.tree.child? n "finalizer" = some finalizer)
    (htask : errand.task = .eval a n s) (hperformed : errand.Performed ev)
    (hthrew : errand.outcome = .error (.threw thrown)) :
    ∃ child, (child = finalizer ∨ a.tree.child? n "block" = some child) ∧
      ∃ level, ev.Throws a thrown errand child level := by
  obtain ⟨errands, hperforms⟩ := hperformed.performs
  have hholder : ev.Holder a errand.task := by
    rw [htask]
    exact .guarded hrule
  have h := hperforms
  rw [htask, performs_try_iff hrule, hthrew] at h
  obtain ⟨block, handling, finalizing, rfl, hattempt⟩ := h.threw
  obtain ⟨⟨child, hchild, hblock⟩, -, given, w₁, hhandles, hfinalizes⟩ := hattempt
  generalize errand.stop = w' at hfinalizes
  cases hfinalizes with
  | none hnone => cases hfinalizer.symm.trans hnone
  | kept _ _ =>
    generalize hreached : block.outcome = reached at hhandles
    cases hhandles with
    | caught hcaught _ => cases hhandler.symm.trans hcaught
    | passed _ => exact ⟨child, Or.inr hchild, Encloses.throws [] _ hperforms hholder hreached hblock⟩
  | replaced hreplaced _ =>
    cases hfinalizer.symm.trans hreplaced
    exact ⟨finalizer, Or.inl rfl, Encloses.throws (block :: handling) [] hperforms hholder rfl rfl⟩

/-- A `try` whose block throws has a level for it. -/
theorem exists_throws_of_guarded {child : NodeId} (hrule : ev.rules.get? (a.tree.tag n) = some .tryStatement)
    (hblock : a.tree.child? n "block" = some child) (htask : errand.task = .eval a n s)
    (hperformed : errand.Performed ev) {steps : Nat}
    (hthrew : ev.perform steps (.eval a child s) errand.start = .ended (.error (.threw thrown), w)) :
    ∃ level, ev.Throws a thrown errand child level := by
  obtain ⟨errands, hperforms⟩ := hperformed.performs
  have hholder : ev.Holder a errand.task := by
    rw [htask]
    exact .guarded hrule
  have h := hperforms
  rw [htask, performs_try_iff hrule] at h
  generalize errand.start = start, errand.stop = stop, errand.outcome = outcome at h hthrew
  cases h with
  | blockless hnone => cases hblock.symm.trans hnone
  | @entered block handling finalizing _ _ hstart h =>
    obtain ⟨⟨child', hchild, htask'⟩, ⟨used, hperform⟩, -⟩ := h
    cases hblock.symm.trans hchild
    rw [htask', hstart] at hperform
    have hunique := perform_unique (some _) (some _) hperform hthrew
    have houtcome : block.outcome = .error (.threw thrown) := congrArg Prod.fst (Option.some.inj hunique)
    exact Encloses.throws [] (handling ++ finalizing) hperforms hholder houtcome htask'

/-- Whether the parts of the program are where they were written, and the outer `try` ends after its block has
thrown. -/
def catchesNested (ev : Evaluator) (r : Resolved) (w : World) : Bool :=
  let a : Activation := ⟨r.tree, r.links, 0⟩
  ev.rules.get? (r.tree.tag 9) == some .tryStatement && ev.rules.get? (r.tree.tag 4) == some .tryStatement &&
  [5, 3, 2].all (fun n => ev.rules.get? (r.tree.tag n) == some .blockStatement) &&
  [5, 4, 3, 2].map (r.tree.present · "body") == [[4], [], [], [1]] &&
  [9, 4].map (r.tree.child? · "block") == [some 5, some 2] && r.tree.child? 4 "handler" == none &&
  r.tree.child? 4 "finalizer" == some 3 && (ev.perform 20 (.eval a 9 r.links.rootScope) w).hasEnded &&
  throwsTrue (ev.perform 20 (.eval a 5 r.links.rootScope) w)

/-- What `true` was thrown by goes out through a `try` with a finalizer to one with a handler. -/
theorem abrupt_ends_unwind_nested : ∃ t r w inner s levels, Tree.ofJson nestedTry = .ok t ∧
    standard.resolve t 0 (World.newRootScope {}).2 = (.ok r, w) ∧
    inner.task = .eval ⟨r.tree, r.links, 0⟩ 1 s ∧ inner.outcome = .error (.threw (.bool true)) ∧
    standard.Nested ⟨r.tree, r.links, 0⟩ inner levels ∧ levels.length = 4 ∧
    ∃ lower upper, levels = lower ++ upper ∧ standard.Leaves ⟨r.tree, r.links, 0⟩ inner lower upper := by
  obtain ⟨t, ht, hfound⟩ := Tree.exists_ofJson (j := nestedTry)
    (p := fun t => standard.resolvesTo t standard.catchesNested) (by decide +kernel)
  obtain ⟨r, w, hresolve, hchecks⟩ := exists_of_resolvesTo hfound
  simp only [catchesNested, Bool.and_eq_true, beq_iff_eq, List.all_cons, List.all_nil, List.map_cons, List.map_nil,
    List.cons.injEq, and_true] at hchecks
  obtain ⟨⟨⟨⟨⟨⟨⟨⟨hrule9, hrule4⟩, hrule5, hrule3, hrule2⟩, hbody5, -, hbody3, hbody2⟩, hblock9, hblock4⟩, hhandler4⟩,
    hfinalizer4⟩, hended⟩, hthrows⟩ := hchecks
  obtain ⟨⟨outcome, w'⟩, hrun⟩ := Run.eq_ended hended
  obtain ⟨w₁, hthrew⟩ := exists_of_throwsTrue hthrows
  let a : Activation := ⟨r.tree, r.links, 0⟩
  have hperformed : Errand.Performed standard ⟨.eval a 9 r.links.rootScope, w, outcome, w'⟩ := ⟨20, hrun⟩
  -- from the outer `try` inward
  obtain ⟨level9, h9⟩ := exists_throws_of_guarded (a := a) hrule9 hblock9 rfl hperformed hthrew
  obtain ⟨s5, htask5⟩ := h9.task
  obtain ⟨n4, hmem4, level5, h5⟩ := exists_throws_of_block (a := a) hrule5 htask5 h9.inner.1 h9.inner.2
  obtain rfl : n4 = 4 := by simpa [a, hbody5] using hmem4
  obtain ⟨s4, htask4⟩ := h5.task
  obtain ⟨n2, hn2, level4, h4⟩ :=
    exists_throws_of_try (a := a) hrule4 hhandler4 hfinalizer4 htask4 h5.inner.1 h5.inner.2
  obtain ⟨s2, htask2⟩ := h4.task
  obtain rfl | hn2 := hn2
  · obtain ⟨n, hmem, -⟩ := exists_throws_of_block (a := a) hrule3 htask2 h4.inner.1 h4.inner.2
    simp [a, hbody3] at hmem
  · obtain rfl : 2 = n2 := Option.some.inj (hblock4.symm.trans hn2)
    obtain ⟨n1, hmem1, level2, h2⟩ := exists_throws_of_block (a := a) hrule2 htask2 h4.inner.1 h4.inner.2
    obtain rfl : n1 = 1 := by simpa [a, hbody2] using hmem1
    obtain ⟨s1, htask1⟩ := h2.task
    have hnested : standard.Nested a level2.inner [level2, level4, level5, level9] := by
      refine ⟨rfl, h2.encloses, h2.outer.symm, h4.encloses, h4.outer.symm, h5.encloses, h5.outer.symm, h9.encloses,
        trivial⟩
    obtain ⟨-, -, -, -, hleaves⟩ := standard.abrupt_ends_unwind a
    exact ⟨t, r, w, level2.inner, s1, _, ht, hresolve, htask1, h2.inner.2, hnested, rfl,
      hleaves level2.inner 1 s1 _ _ htask1 h2.inner.2 hnested⟩

end Evaluator

end ScriptCore

import ScriptCore.Proofs.Eval.Stretch

/-!
# Interludes

What goes on while a function is called need not be known to whoever called it: it is enough that the call
keeps a contract. So a run may be seen as one of the tasks around its calls, with interludes in which a
call is under way. If the tasks around go in their gaits, and each call keeps a contract from the world
that it starts in, then each stretch of the run is in its gait, or lies within the contract of an interlude
(`Evaluator.stretches_between`).
-/
namespace ScriptCore

namespace Gait

/-- Tasks that go in their gaits, with interludes that keep contracts. What is sound of a world stays so
along both. -/
structure Between (k : Task → Gait) (good interlude : Task → Prop) (contract : World → Contract)
    (sound : World → Prop) (ev : Evaluator) : Prop where
  goes : ∀ task w, good task → (ev.carryOut task w).Goes (k task) (k task).Hands w
  asks : ∀ task next, good task → (k task).asks next → good next ∨ interlude next
  moves : ∀ task w w', good task → sound w → (k task).moves w w' → sound w'
  keptBy : ∀ w, (contract w).KeptBy ev
  starts : ∀ task w, interlude task → (contract w).inv w ∧ (contract w).asks task
  stays : ∀ w w', sound w → (contract w).inv w' → sound w'

/-- Where a run stands: in a task that goes in its gait, or in an interlude. -/
inductive Phase (k : Task → Gait) (good : Task → Prop) (contract : World → Contract)
    (sound : World → Prop) (task : Task) (w : World) (c : Computation Ending)
    (stack : List (Task × Evaluator.Waiting)) : Prop
  | around (htask : good task) (hw : sound w) (hc : c.Goes (k task) (k task).Hands w)
    (hstack : Awaits k good stack)
  | inside (w₀ : World) (hw₀ : sound w₀) {inner outer : List (Task × Evaluator.Waiting)}
    {goal : Except Abrupt Value → Prop} (hsplit : stack = inner ++ outer)
    (hw : (contract w₀).inv w) (htask : (contract w₀).asks task)
    (hc : c.Meets (contract w₀) ((contract w₀).Settles goal))
    (hasked : ∀ frame ∈ inner, (contract w₀).asks frame.1)
    (hinner : (contract w₀).Awaits (inner.map Prod.snd) goal fun _ => True)
    (houter : Awaits k good outer)

/-- What a stretch does: it moves in the gait of its task, or stays within the contract of an interlude. -/
def Passes (k : Task → Gait) (good : Task → Prop) (contract : World → Contract) (sound : World → Prop)
    (s : Stretch) : Prop :=
  (good s.task ∧ sound s.start ∧ (k s.task).moves s.start s.stop) ∨
    ∃ w₀, sound w₀ ∧ (contract w₀).asks s.task ∧ (contract w₀).inv s.start ∧ (contract w₀).inv s.stop

variable {ev : Evaluator} {k : Task → Gait} {good interlude : Task → Prop} {contract : World → Contract}
  {sound : World → Prop} {w : World} {stack : List (Task × Evaluator.Waiting)}

/-- A task that is asked for from around begins in its gait, or begins an interlude. -/
theorem Between.phase_next (hk : Between k good interlude contract sound ev) {next : Task}
    (hnext : good next ∨ interlude next) (hw : sound w) (hstack : Awaits k good stack) :
    Phase k good contract sound next w (ev.carryOut next w) stack := by
  obtain hgood | hinterlude := hnext
  · exact .around hgood hw (hk.goes next w hgood) hstack
  · obtain ⟨hinv, hasks⟩ := hk.starts next w hinterlude
    have hend : (contract w).Awaits [] ((contract w).gives next) fun _ => True := fun _ _ => trivial
    exact .inside w hw (List.nil_append stack).symm hinv hasks (hk.keptBy w next w hasks hinv) (by simp)
      hend hstack

/-- What waits around goes on in its gait. -/
theorem phase_resumed {frame : Task × Evaluator.Waiting} (hw : sound w)
    (hstack : Awaits k good (frame :: stack)) (outcome : Except Abrupt Value) :
    Phase k good contract sound frame.1 w (frame.2 outcome w) stack := by
  obtain ⟨⟨hgood, hresume⟩, hrest⟩ := List.forall_mem_cons.mp hstack
  exact .around hgood hw (hresume outcome w) hrest

/-- An interlude that has come to an outcome goes on with what waits in it, or is over. -/
theorem Between.phase_delivered (hk : Between k good interlude contract sound ev) {w₀ : World}
    (hw₀ : sound w₀) {frame : Task × Evaluator.Waiting}
    {inner outer : List (Task × Evaluator.Waiting)} {goal : Except Abrupt Value → Prop}
    (hsplit : frame :: stack = inner ++ outer) {outcome : Except Abrupt Value} (hw : (contract w₀).inv w)
    (houtcome : goal outcome) (hasked : ∀ frame ∈ inner, (contract w₀).asks frame.1)
    (hinner : (contract w₀).Awaits (inner.map Prod.snd) goal fun _ => True)
    (houter : Awaits k good outer) :
    Phase k good contract sound frame.1 w (frame.2 outcome w) stack := by
  cases inner with
  | nil =>
    obtain rfl : frame :: stack = outer := hsplit
    exact phase_resumed (hk.stays w₀ w hw₀ hw) houter outcome
  | cons first inner =>
    simp only [List.cons_append, List.cons.injEq] at hsplit
    obtain ⟨rfl, hrest⟩ := hsplit
    obtain ⟨hfirst, hasked⟩ := List.forall_mem_cons.mp hasked
    obtain ⟨goal', hinner, hnext⟩ := hinner
    exact .inside w₀ hw₀ hrest hw hfirst (hnext outcome w hw houtcome) hasked hinner houter

end Gait

namespace Evaluator

open Gait

variable {ev : Evaluator} {k : Task → Gait} {good interlude : Task → Prop} {contract : World → Contract}
  {sound : World → Prop}

/-- **A run with interludes.** -/
theorem stretches_between (hk : Between k good interlude contract sound ev) {steps : Nat} {task : Task}
    {w₀ : World} {c : Computation Ending} {stack : List (Task × Waiting)}
    (h : Phase k good contract sound task w₀ c stack) :
    ∀ s ∈ ev.stretches steps task w₀ c stack, Passes k good contract sound s := by
  fun_induction stretches ev steps task w₀ c stack with
  | case1 => simp
  | case2 steps task w₀ next w resume stack ih =>
    refine List.forall_mem_cons.mpr ?_
    cases h with
    | around htask hw hc hstack =>
      obtain ⟨hmoves, hasks, hresume⟩ := hc
      exact ⟨Or.inl ⟨htask, hw, hmoves⟩, ih (hk.phase_next (hk.asks task next htask hasks)
        (hk.moves task w₀ w htask hw hmoves) (List.forall_mem_cons.mpr ⟨⟨htask, hresume⟩, hstack⟩))⟩
    | @inside w₁ hw₁ inner outer goal hsplit hw htask hc hasked hinner houter =>
      obtain ⟨hinv, hasks, hresume⟩ := hc
      have hsplit' : (task, resume) :: stack = ((task, resume) :: inner) ++ outer := by
        rw [hsplit, List.cons_append]
      exact ⟨Or.inr ⟨w₁, hw₁, htask, hw, hinv⟩, ih (.inside w₁ hw₁ hsplit' hinv hasks
        (hk.keptBy w₁ next w hasks hinv) (List.forall_mem_cons.mpr ⟨htask, hasked⟩)
        ⟨goal, hinner, hresume⟩ houter)⟩
  | case3 steps task w₀ next w stack ih =>
    refine List.forall_mem_cons.mpr ?_
    cases h with
    | around htask hw hc hstack =>
      obtain ⟨hmoves, hasks⟩ := hc
      exact ⟨Or.inl ⟨htask, hw, hmoves⟩, ih (hk.phase_next (hk.asks task next htask hasks)
        (hk.moves task w₀ w htask hw hmoves) hstack)⟩
    | @inside w₁ hw₁ inner outer goal hsplit hw htask hc hasked hinner houter =>
      obtain ⟨hinv, hasks, hgives⟩ := hc
      exact ⟨Or.inr ⟨w₁, hw₁, htask, hw, hinv⟩, ih (.inside w₁ hw₁ hsplit hinv hasks
        (hk.keptBy w₁ next w hasks hinv) hasked (hinner.mono hgives) houter)⟩
  | case4 steps task w₀ value w caller resume stack ih =>
    refine List.forall_mem_cons.mpr ?_
    cases h with
    | around htask hw hc hstack =>
      exact ⟨Or.inl ⟨htask, hw, hc.1⟩,
        ih (phase_resumed (hk.moves task w₀ w htask hw hc.1) hstack (.ok value))⟩
    | @inside w₁ hw₁ inner outer goal hsplit hw htask hc hasked hinner houter =>
      obtain ⟨hinv, houtcome⟩ := hc
      exact ⟨Or.inr ⟨w₁, hw₁, htask, hw, hinv⟩,
        ih (hk.phase_delivered hw₁ hsplit hinv houtcome hasked hinner houter)⟩
  | case5 steps task w₀ e w caller resume stack ih =>
    refine List.forall_mem_cons.mpr ?_
    cases h with
    | around htask hw hc hstack =>
      exact ⟨Or.inl ⟨htask, hw, hc⟩,
        ih (phase_resumed (hk.moves task w₀ w htask hw hc) hstack (.error e))⟩
    | @inside w₁ hw₁ inner outer goal hsplit hw htask hc hasked hinner houter =>
      obtain ⟨hinv, houtcome⟩ := hc
      exact ⟨Or.inr ⟨w₁, hw₁, htask, hw, hinv⟩,
        ih (hk.phase_delivered hw₁ hsplit hinv houtcome hasked hinner houter)⟩
  | case6 steps task w₀ result w =>
    refine List.forall_mem_cons.mpr ⟨?_, by simp⟩
    cases h with
    | around htask hw hc hstack =>
      have hmoves : (k task).moves w₀ w := by
        cases result with
        | ok ending => exact hc.1
        | error e => exact hc
      exact Or.inl ⟨htask, hw, hmoves⟩
    | @inside w₁ hw₁ inner outer goal hsplit hw htask hc hasked hinner houter =>
      have hinv : (contract w₁).inv w := by
        cases result with
        | ok ending => cases ending <;> exact hc.1
        | error e => exact hc.1
      exact Or.inr ⟨w₁, hw₁, htask, hw, hinv⟩
  | case7 => simp

theorem stretchesOf_between (hk : Between k good interlude contract sound ev) {steps : Nat} {task : Task}
    {w : World} (htask : good task) (hw : sound w) :
    ∀ s ∈ ev.stretchesOf steps task w, Passes k good contract sound s :=
  stretches_between hk (hk.phase_next (Or.inl htask) hw (by simp [Awaits]))

end Evaluator

end ScriptCore

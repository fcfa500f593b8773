import ScriptCore.Proofs.Eval.Stack

/-!
# Computations that come to the same

A computation taken by itself comes to an outcome in a world, or breaks off, or goes on for ever
(`Computation.ComesTo`); a run of the machine does nothing else (`Evaluator.exists_perform_eq_iff`). Two
computations are alike if they come to the same, the nodes that failures name left aside. Being alike is kept
by every way to build a step (`Computation.Like.andThen`, `Eval.Like.bind`), and asking for a node is like
the rule for it (`Eval.like_eval`); so steps are put for one another, and a task for another
(`Evaluator.SameEnd`), by rewriting.
-/
namespace ScriptCore

/-- An abrupt end without the node it was raised at. -/
def Abrupt.unplaced : Abrupt → Abrupt
  | .failure error => .failure { error with node := none }
  | other => other

theorem Abrupt.unplaced_raisedAt (e : Abrupt) (n : NodeId) : (e.raisedAt n).unplaced = e.unplaced := by
  cases e <;> rfl

/-- What came of a step, without the node of a failure. -/
def unplaced {α : Type} (result : Except Abrupt α × World) : Except Abrupt α × World :=
  (result.1.mapError Abrupt.unplaced, result.2)

namespace Computation

variable {α β γ : Type}

theorem andThen_assoc (c : Computation α) (f : α → World → Computation β) (g : β → World → Computation γ) :
    (c.andThen f).andThen g = c.andThen fun a w => (f a w).andThen g := by
  induction c with
  | done outcome w => cases outcome <;> rfl
  | ask task w resume ih => exact congrArg (ask task w) (funext fun given => funext fun w' => ih given w')
  | brokenOff => rfl

theorem andThen_done (c : Computation α) : c.andThen (fun a w => .done (.ok a) w) = c := by
  induction c with
  | done outcome w => cases outcome <;> rfl
  | ask task w resume ih => exact congrArg (ask task w) (funext fun given => funext fun w' => ih given w')
  | brokenOff => rfl

end Computation

instance : LawfulMonad Eval := LawfulMonad.mk' Eval
  (fun m => funext fun w => (m w).andThen_done)
  (fun _ _ => rfl)
  (fun m f g => funext fun w => (m w).andThen_assoc (fun a => f a) fun b => g b)

/-! ## What a computation comes to -/

namespace Run

/-- The end of a run: a result, or none if it broke off. -/
def ofEnd {α : Type} : Option α → Run α
  | some result => .ended result
  | none => .brokeOff

theorem ofEnd_ne {α : Type} (result : Option α) : ofEnd result ≠ .outOfSteps := by
  cases result <;> exact nofun

theorem ofEnd_inj {α : Type} {result result' : Option α} (h : ofEnd result = ofEnd result') :
    result = result' := by
  cases result <;> cases result' <;> cases h <;> rfl

theorem map_ofEnd {α β : Type} (f : α → β) (result : Option α) :
    (ofEnd result).map f = ofEnd (result.map f) := by
  cases result <;> rfl

theorem exists_ofEnd {α : Type} {run : Run α} (h : run ≠ .outOfSteps) : ∃ result, run = ofEnd result := by
  cases run with
  | ended result => exact ⟨some result, rfl⟩
  | brokeOff => exact ⟨none, rfl⟩
  | outOfSteps => exact absurd rfl h

end Run

namespace Evaluator

variable {ev : Evaluator}

/-- Runs of one task that come to an end come to the same one. -/
theorem perform_unique {steps steps' : Nat} {task : Task} {w : World}
    (result result' : Option (Except Abrupt Value × World)) (h : ev.perform steps task w = .ofEnd result)
    (h' : ev.perform steps' task w = .ofEnd result') : result = result' := by
  have hmore : ev.perform (steps + steps') task w = .ofEnd result :=
    (run_add (fun hout => Run.ofEnd_ne result (h.symm.trans hout)) steps').trans h
  have hmore' : ev.perform (steps' + steps) task w = .ofEnd result' :=
    (run_add (fun hout => Run.ofEnd_ne result' (h'.symm.trans hout)) steps).trans h'
  rw [Nat.add_comm] at hmore'
  exact Run.ofEnd_inj (hmore.symm.trans hmore')

/-- A run on a deep stack that comes to an end has come to the end of its upper part. -/
theorem run_top {steps : Nat} {c : Computation Ending} {top rest : List Waiting}
    (h : ev.run steps c (top ++ rest) ≠ .outOfSteps) : ev.run steps c top ≠ .outOfSteps := by
  fun_induction Evaluator.run ev steps c top with
  | case1 => exact absurd rfl h
  | case2 steps task w resume top ih | case3 steps task w top ih | case4 steps value w next top ih
  | case5 steps e w next top ih => exact ih h
  | case6 | case7 | case8 =>
    intro hout
    cases hout

/-- A run from a computation that asks comes to an end if the task does and what goes on from there does. -/
theorem exists_run_ask_iff {task : Task} {w : World} {resume : Waiting} {stack : List Waiting}
    {run : Run (Except Abrupt Value × World)} (hrun : run ≠ .outOfSteps) :
    (∃ steps, ev.run steps (.ask task w resume) stack = run) ↔ ∃ used more,
      ((ev.perform used task w).andThen fun result => ev.run more (resume result.1 result.2) stack) = run := by
  constructor
  · rintro ⟨steps, rfl⟩
    have hperform : ev.perform steps task w ≠ .outOfSteps := by
      cases steps with
      | zero => exact absurd rfl hrun
      | succ steps =>
        have htop : ev.perform steps task w ≠ .outOfSteps := @run_top ev steps _ [] _ hrun
        rw [show ev.perform (steps + 1) task w = ev.perform steps task w from run_add htop 1]
        exact htop
    obtain ⟨used, hused⟩ := run_ask hperform resume
    refine ⟨steps, steps, ?_⟩
    rw [← hused, Nat.add_comm, run_add hrun]
  · rintro ⟨used, more, rfl⟩
    have hperform : ev.perform used task w ≠ .outOfSteps := fun hout => hrun (by rw [hout]; rfl)
    obtain ⟨before, hbefore⟩ := run_ask hperform resume
    exact ⟨before + more, hbefore more stack⟩

end Evaluator

namespace Computation

variable {α β : Type} {ev : Evaluator}

/-- What a computation comes to: an outcome in a world, or nothing if it breaks off, be it in a task that it
asks for. -/
inductive ComesTo (ev : Evaluator) : Computation α → Option (Except Abrupt α × World) → Prop
  | done (outcome : Except Abrupt α) (w : World) : ComesTo ev (.done outcome w) (some (outcome, w))
  | ask {task : Task} {w w₁ : World} {resume : Except Abrupt Value → World → Computation α} {used : Nat}
    {given : Except Abrupt Value} {result : Option (Except Abrupt α × World)}
    (hperform : ev.perform used task w = .ended (given, w₁)) (hrest : ComesTo ev (resume given w₁) result) :
    ComesTo ev (.ask task w resume) result
  | lost {task : Task} {w : World} {resume : Except Abrupt Value → World → Computation α} {used : Nat}
    (hperform : ev.perform used task w = .brokeOff) : ComesTo ev (.ask task w resume) none
  | brokenOff : ComesTo ev .brokenOff none

variable {c c' c'' : Computation α} {result : Option (Except Abrupt α × World)} {w : World} {a : α}

/-- There is one end to come to. -/
theorem ComesTo.unique {result' : Option (Except Abrupt α × World)} (h : c.ComesTo ev result)
    (h' : c.ComesTo ev result') : result = result' := by
  induction h with
  | done outcome w =>
    cases h'
    rfl
  | ask hperform hrest ih =>
    cases h' with
    | ask hperform' hrest' =>
      cases Evaluator.perform_unique (some _) (some _) hperform hperform'
      exact ih hrest'
    | lost hperform' => cases Evaluator.perform_unique (some _) none hperform hperform'
  | lost hperform =>
    cases h' with
    | ask hperform' hrest' =>
      cases Evaluator.perform_unique none (some _) hperform hperform'
    | lost => rfl
  | brokenOff =>
    cases h'
    rfl

/-- What is done with what a step comes to is what two steps in a row come to. -/
theorem ComesTo.andThen {f : α → World → Computation β} {first : Option (Except Abrupt α × World)}
    {result : Option (Except Abrupt β × World)} (h : c.ComesTo ev first)
    (hok : ∀ a w, first = some (.ok a, w) → (f a w).ComesTo ev result)
    (herror : ∀ e w, first = some (.error e, w) → result = some (.error e, w))
    (hnone : first = none → result = none) : (c.andThen f).ComesTo ev result := by
  induction h with
  | done outcome w =>
    cases outcome with
    | ok a => exact hok a w rfl
    | error e =>
      rw [herror e w rfl]
      exact .done _ w
  | ask hperform _ ih => exact .ask hperform (ih hok herror hnone)
  | lost hperform =>
    rw [hnone rfl]
    exact .lost hperform
  | brokenOff =>
    rw [hnone rfl]
    exact .brokenOff

/-- What two steps in a row come to. -/
theorem comesTo_andThen_iff {f : α → World → Computation β} {result : Option (Except Abrupt β × World)} :
    (c.andThen f).ComesTo ev result ↔
      (∃ a w, c.ComesTo ev (some (.ok a, w)) ∧ (f a w).ComesTo ev result) ∨
      (∃ e w, c.ComesTo ev (some (.error e, w)) ∧ result = some (.error e, w)) ∨
      c.ComesTo ev none ∧ result = none := by
  constructor
  · intro h
    induction c with
    | done outcome w =>
      cases outcome with
      | ok a => exact Or.inl ⟨a, w, .done _ w, h⟩
      | error e =>
        cases h
        exact Or.inr (Or.inl ⟨e, w, .done _ w, rfl⟩)
    | ask task w resume ih =>
      cases h with
      | ask hperform hrest =>
        obtain ⟨a, w', hfirst, hsecond⟩ | ⟨e, w', hfirst, heq⟩ | ⟨hfirst, heq⟩ := ih _ _ hrest
        · exact Or.inl ⟨a, w', .ask hperform hfirst, hsecond⟩
        · exact Or.inr (Or.inl ⟨e, w', .ask hperform hfirst, heq⟩)
        · exact Or.inr (Or.inr ⟨.ask hperform hfirst, heq⟩)
      | lost hperform => exact Or.inr (Or.inr ⟨.lost hperform, rfl⟩)
    | brokenOff =>
      cases h
      exact Or.inr (Or.inr ⟨.brokenOff, rfl⟩)
  · rintro (⟨a, w, hfirst, hsecond⟩ | ⟨e, w, hfirst, rfl⟩ | ⟨hfirst, rfl⟩)
    · refine hfirst.andThen ?_ ?_ ?_
      · rintro a' w' ⟨⟩
        exact hsecond
      · rintro e' w' ⟨⟩
      · rintro ⟨⟩
    · refine hfirst.andThen ?_ ?_ ?_
      · rintro a' w' ⟨⟩
      · rintro e' w' ⟨⟩
        rfl
      · rintro ⟨⟩
    · refine hfirst.andThen ?_ ?_ fun _ => rfl
      · rintro a' w' ⟨⟩
      · rintro e' w' ⟨⟩

/-- Two steps in a row that come to a value. -/
theorem comesTo_andThen_ok {f : α → World → Computation β} {b : β} {w' : World}
    (h : (c.andThen f).ComesTo ev (some (.ok b, w'))) :
    ∃ a w, c.ComesTo ev (some (.ok a, w)) ∧ (f a w).ComesTo ev (some (.ok b, w')) := by
  obtain hboth | ⟨e, w, -, heq⟩ | ⟨-, heq⟩ := comesTo_andThen_iff.mp h
  · exact hboth
  · cases heq
  · cases heq

/-- A node attached to a failure is the only difference that attaching one makes. -/
theorem comesTo_raisedAt_iff {n : NodeId} : (c.raisedAt n).ComesTo ev result ↔
    ∃ inner, c.ComesTo ev inner ∧ result = inner.map fun r => (r.1.mapError fun e => e.raisedAt n, r.2) := by
  constructor
  · intro h
    induction c with
    | done outcome w => cases outcome <;> cases h <;> exact ⟨_, .done _ w, rfl⟩
    | ask task w resume ih =>
      cases h with
      | ask hperform hrest =>
        obtain ⟨inner, hinner, heq⟩ := ih _ _ hrest
        exact ⟨inner, .ask hperform hinner, heq⟩
      | lost hperform => exact ⟨none, .lost hperform, rfl⟩
    | brokenOff =>
      cases h
      exact ⟨none, .brokenOff, rfl⟩
  · rintro ⟨inner, hinner, rfl⟩
    induction hinner with
    | done outcome w => cases outcome <;> exact .done _ w
    | ask hperform _ ih => exact .ask hperform ih
    | lost hperform => exact .lost hperform
    | brokenOff => exact .brokenOff

/-! ## Computations that are alike -/

/-- What a computation comes to, without the node of a failure. -/
def Yields (ev : Evaluator) (c : Computation α) (result : Option (Except Abrupt α × World)) : Prop :=
  ∃ placed, c.ComesTo ev placed ∧ placed.map unplaced = result

/-- A value is yielded as it is. -/
theorem yields_ok_iff : c.Yields ev (some (.ok a, w)) ↔ c.ComesTo ev (some (.ok a, w)) := by
  constructor
  · rintro ⟨placed, hcomes, heq⟩
    obtain ⟨⟨outcome, w'⟩, rfl, hresult⟩ := Option.map_eq_some_iff.mp heq
    cases outcome with
    | ok a' =>
      cases hresult
      exact hcomes
    | error e => cases hresult
  · exact fun h => ⟨_, h, rfl⟩

theorem Yields.unique {result' : Option (Except Abrupt α × World)} (h : c.Yields ev result)
    (h' : c.Yields ev result') : result = result' := by
  obtain ⟨placed, hcomes, rfl⟩ := h
  obtain ⟨placed', hcomes', rfl⟩ := h'
  rw [hcomes.unique hcomes']

theorem yields_andThen_iff {f : α → World → Computation β} {result : Option (Except Abrupt β × World)} :
    (c.andThen f).Yields ev result ↔
      (∃ a w, c.ComesTo ev (some (.ok a, w)) ∧ (f a w).Yields ev result) ∨
      (∃ e w, c.Yields ev (some (.error e, w)) ∧ result = some (.error e, w)) ∨
      c.Yields ev none ∧ result = none := by
  constructor
  · rintro ⟨placed, hcomes, rfl⟩
    obtain ⟨a, w, hfirst, hsecond⟩ | ⟨e, w, hfirst, rfl⟩ | ⟨hfirst, rfl⟩ := comesTo_andThen_iff.mp hcomes
    · exact Or.inl ⟨a, w, hfirst, placed, hsecond, rfl⟩
    · exact Or.inr (Or.inl ⟨e.unplaced, w, ⟨_, hfirst, rfl⟩, rfl⟩)
    · exact Or.inr (Or.inr ⟨⟨none, hfirst, rfl⟩, rfl⟩)
  · rintro (⟨a, w, hfirst, placed, hsecond, rfl⟩ | ⟨e, w, ⟨placed, hfirst, heq⟩, rfl⟩ |
      ⟨⟨placed, hfirst, heq⟩, rfl⟩)
    · exact ⟨placed, comesTo_andThen_iff.mpr (Or.inl ⟨a, w, hfirst, hsecond⟩), rfl⟩
    · obtain ⟨⟨outcome, w'⟩, rfl, hresult⟩ := Option.map_eq_some_iff.mp heq
      cases outcome with
      | ok a => cases hresult
      | error e' =>
        cases hresult
        exact ⟨_, comesTo_andThen_iff.mpr (Or.inr (Or.inl ⟨e', w', hfirst, rfl⟩)), rfl⟩
    · rw [Option.map_eq_none_iff.mp heq] at hfirst
      exact ⟨none, comesTo_andThen_iff.mpr (Or.inr (Or.inr ⟨hfirst, rfl⟩)), rfl⟩

/-- Computations that come to the same, the nodes of failures aside; so neither comes to an end without the
other. -/
def Like (ev : Evaluator) (c c' : Computation α) : Prop := ∀ result, c.Yields ev result ↔ c'.Yields ev result

theorem Like.refl (ev : Evaluator) (c : Computation α) : c.Like ev c := fun _ => Iff.rfl

theorem Like.symm (h : c.Like ev c') : c'.Like ev c := fun result => (h result).symm

theorem Like.trans (h : c.Like ev c') (h' : c'.Like ev c'') : c.Like ev c'' := fun result =>
  (h result).trans (h' result)

theorem Like.comesTo_ok_iff (h : c.Like ev c') {w : World} :
    c.ComesTo ev (some (.ok a, w)) ↔ c'.ComesTo ev (some (.ok a, w)) := by
  rw [← yields_ok_iff, ← yields_ok_iff]
  exact h _

/-- Steps in a row are alike if the first ones are, and the second ones from each world that the first come
to. -/
theorem Like.andThen {f f' : α → World → Computation β} (h : c.Like ev c')
    (hf : ∀ a w, c.ComesTo ev (some (.ok a, w)) → (f a w).Like ev (f' a w)) :
    (c.andThen f).Like ev (c'.andThen f') := by
  intro result
  rw [yields_andThen_iff, yields_andThen_iff]
  refine or_congr ?_ (or_congr ?_ (and_congr_left fun _ => h none))
  · refine exists_congr fun a => exists_congr fun w => ?_
    rw [← h.comesTo_ok_iff]
    exact and_congr_right fun hfirst => hf a w hfirst result
  · exact exists_congr fun e => exists_congr fun w => and_congr_left fun _ => h _

/-- From a value that the first step comes to, two steps in a row are the second one. -/
theorem ComesTo.like_andThen (h : c.ComesTo ev (some (.ok a, w))) (f : α → World → Computation β) :
    (c.andThen f).Like ev (f a w) := by
  intro result
  rw [yields_andThen_iff]
  constructor
  · rintro (⟨a', w', hfirst, hsecond⟩ | ⟨e, w', hfirst, -⟩ | ⟨hfirst, -⟩)
    · cases h.unique hfirst
      exact hsecond
    · cases (yields_ok_iff.mpr h).unique hfirst
    · cases (yields_ok_iff.mpr h).unique hfirst
  · exact fun hsecond => Or.inl ⟨a, w, h, hsecond⟩

theorem like_raisedAt (ev : Evaluator) (c : Computation α) (n : NodeId) : (c.raisedAt n).Like ev c := by
  have hsame (inner : Option (Except Abrupt α × World)) :
      (inner.map fun r => (r.1.mapError fun e => e.raisedAt n, r.2)).map unplaced = inner.map unplaced := by
    obtain _ | ⟨e | a, w⟩ := inner
    · rfl
    · exact congrArg (fun e => some (Except.error e, w)) (Abrupt.unplaced_raisedAt e n)
    · rfl
  intro result
  constructor
  · rintro ⟨placed, hcomes, rfl⟩
    obtain ⟨inner, hinner, rfl⟩ := comesTo_raisedAt_iff.mp hcomes
    exact ⟨inner, hinner, (hsame inner).symm⟩
  · rintro ⟨placed, hcomes, rfl⟩
    exact ⟨_, comesTo_raisedAt_iff.mpr ⟨placed, hcomes, rfl⟩, hsame placed⟩

end Computation

/-! ## Steps that are alike -/

namespace Eval

variable {α β : Type} {ev : Evaluator} {m m' m'' : Eval α}

/-- Steps that come to the same from every world. -/
def Like (ev : Evaluator) (m m' : Eval α) : Prop := ∀ w, (m w).Like ev (m' w)

theorem Like.refl (ev : Evaluator) (m : Eval α) : m.Like ev m := fun w => .refl ev (m w)

theorem like_of_eq (h : m = m') : m.Like ev m' := h ▸ .refl ev m

theorem Like.symm (h : m.Like ev m') : m'.Like ev m := fun w => (h w).symm

theorem Like.trans (h : m.Like ev m') (h' : m'.Like ev m'') : m.Like ev m'' := fun w => (h w).trans (h' w)

theorem Like.bind {f f' : α → Eval β} (h : m.Like ev m') (hf : ∀ a, (f a).Like ev (f' a)) :
    (m >>= f).Like ev (m' >>= f') := fun w =>
  (h w).andThen fun a w' _ => hf a w'

theorem Like.map (h : m.Like ev m') (f : α → β) : (f <$> m).Like ev (f <$> m') :=
  h.bind fun _ => .refl ev _

theorem like_raisedAt (ev : Evaluator) (m : Eval α) (n : NodeId) : (m.raisedAt n).Like ev m := fun w =>
  (m w).like_raisedAt ev n

end Eval

/-! ## Tasks -/

namespace Evaluator

variable {ev : Evaluator} {task task' : Task} {w : World}

/-- A computation that ends with its value is run to what it comes to. -/
theorem exists_run_eq_iff {c : Computation Value} {result : Option (Except Abrupt Value × World)} :
    (∃ steps, ev.run steps (c.andThen fun value w => .done (.ok (.value value)) w) [] = .ofEnd result) ↔
      c.ComesTo ev result := by
  constructor
  · rintro ⟨steps, h⟩
    induction c generalizing steps with
    | done outcome w =>
      cases steps with
      | zero => exact absurd h.symm (Run.ofEnd_ne result)
      | succ steps =>
        have hend : Run.ended (outcome, w) = Run.ofEnd result := by cases outcome <;> exact h
        cases result with
        | none => cases hend
        | some result =>
          cases hend
          exact .done outcome w
    | ask task w resume ih =>
      obtain ⟨used, more, hmore⟩ := (exists_run_ask_iff (Run.ofEnd_ne result)).mp ⟨steps, h⟩
      cases hperform : ev.perform used task w with
      | ended first =>
        rw [hperform] at hmore
        exact .ask hperform (ih _ _ more hmore)
      | brokeOff =>
        rw [hperform] at hmore
        cases result with
        | none => exact .lost hperform
        | some result => cases hmore
      | outOfSteps =>
        rw [hperform] at hmore
        exact absurd hmore.symm (Run.ofEnd_ne result)
    | brokenOff =>
      cases steps with
      | zero => exact absurd h.symm (Run.ofEnd_ne result)
      | succ steps =>
        cases result with
        | none => exact .brokenOff
        | some result => cases h
  · intro h
    induction h with
    | done outcome w => exact ⟨1, by cases outcome <;> rfl⟩
    | ask hperform hrest ih =>
      obtain ⟨more, hmore⟩ := ih
      exact (exists_run_ask_iff (Run.ofEnd_ne _)).mpr ⟨_, more, by rw [hperform]; exact hmore⟩
    | lost hperform => exact (exists_run_ask_iff (Run.ofEnd_ne _)).mpr ⟨_, 0, by rw [hperform]; rfl⟩
    | brokenOff => exact ⟨1, rfl⟩

/-- **A task that ends with the value of a step is performed to what the step comes to.** -/
theorem exists_perform_eq_iff {m : Eval Value} (hcarry : ev.carryOut task = Ending.value <$> m)
    {result : Option (Except Abrupt Value × World)} :
    (∃ steps, ev.perform steps task w = .ofEnd result) ↔ (m w).ComesTo ev result := by
  rw [← exists_run_eq_iff]
  unfold perform
  rw [hcarry]
  rfl

/-- What is asked for is performed. -/
theorem comesTo_ask_iff {result : Option (Except Abrupt Value × World)} :
    (Eval.ask task w).ComesTo ev result ↔ ∃ steps, ev.perform steps task w = .ofEnd result := by
  constructor
  · intro h
    cases h with
    | ask hperform hrest =>
      cases hrest
      exact ⟨_, hperform⟩
    | lost hperform => exact ⟨_, hperform⟩
  · rintro ⟨steps, h⟩
    cases result with
    | none => exact .lost h
    | some result => exact .ask h (.done _ _)

/-- Tasks that end in the same way, from a world: each can be performed to what the other can be, the nodes
of failures aside. -/
def SameEnd (ev : Evaluator) (task task' : Task) (w : World) : Prop :=
  ∀ run, (∃ steps, (ev.perform steps task w).map unplaced = run) ↔
    ∃ steps, (ev.perform steps task' w).map unplaced = run

/-- What is asked for yields what it can be performed to, the node of a failure aside. -/
theorem yields_ask_iff {result : Option (Except Abrupt Value × World)} :
    (Eval.ask task w).Yields ev result ↔ ∃ steps, (ev.perform steps task w).map unplaced = .ofEnd result := by
  constructor
  · rintro ⟨placed, hcomes, rfl⟩
    obtain ⟨steps, hsteps⟩ := comesTo_ask_iff.mp hcomes
    exact ⟨steps, by rw [hsteps, Run.map_ofEnd]⟩
  · rintro ⟨steps, hend⟩
    have hne : ev.perform steps task w ≠ .outOfSteps := by
      intro hout
      rw [hout] at hend
      exact Run.ofEnd_ne result hend.symm
    obtain ⟨placed, hplaced⟩ := Run.exists_ofEnd hne
    rw [hplaced, Run.map_ofEnd] at hend
    exact ⟨placed, comesTo_ask_iff.mpr ⟨steps, hplaced⟩, Run.ofEnd_inj hend⟩

/-- Tasks end in the same way if asking for them is alike. -/
theorem sameEnd_of_like (h : (Eval.ask task w).Like ev (Eval.ask task' w)) : ev.SameEnd task task' w := by
  intro run
  by_cases hrun : run = .outOfSteps
  · rw [hrun]
    exact ⟨fun _ => ⟨0, rfl⟩, fun _ => ⟨0, rfl⟩⟩
  · obtain ⟨result, rfl⟩ := Run.exists_ofEnd hrun
    rw [← yields_ask_iff, ← yields_ask_iff]
    exact h result

end Evaluator

/-! ## Asking for a node -/

namespace Eval

variable {ev : Evaluator}

/-- Asking for a node is to do what its rule means, the node of a failure aside. -/
theorem like_eval {a : Activation} {n : NodeId} {rule : Rule} (hrule : ev.rules.get? (a.tree.tag n) = some rule)
    (s : ScopeId) : ((ev.context a).eval n s).Like ev (rule.meaning ev.host (ev.context a) n s) := by
  intro w
  have hnode : ev.evalNode a n s = (rule.meaning ev.host (ev.context a) n s).raisedAt n := by
    rw [Evaluator.evalNode, hrule]
  have hask : ((ev.context a).eval n s w).Like ev ((rule.meaning ev.host (ev.context a) n s w).raisedAt n) := by
    have hcomes (placed : Option (Except Abrupt Value × World)) :
        ((ev.context a).eval n s w).ComesTo ev placed ↔
          ((rule.meaning ev.host (ev.context a) n s w).raisedAt n).ComesTo ev placed := by
      rw [Context.eval, Evaluator.comesTo_ask_iff, Evaluator.exists_perform_eq_iff (m := ev.evalNode a n s) rfl,
        hnode]
      rfl
    exact fun result => exists_congr fun placed => and_congr_left fun _ => hcomes placed
  exact hask.trans (Computation.like_raisedAt ev _ n)

end Eval

end ScriptCore

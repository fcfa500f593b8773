import ScriptCore.Proofs.Eval.Instantiation
import ScriptCore.Proofs.Eval.Performing

/-!
# Abrupt ends on their way out

Some outcomes of what is asked for end a computation at once (`Computation.Answers`). So a statement that holds
statements passes the abrupt end of one of them on, in the same world, unless it receives that end: a loop
receives `break` and `continue`, a switch receives `break` (`Evaluator.passed_on`). That of `try` is another
matter. An end that a node was evaluated to has a place, if it is a failure, so that no node around it changes
it (`Evaluator.Performs.placed`).
-/
namespace ScriptCore

/-- An end that no node changes: it is no failure, or has a place. -/
def Abrupt.Placed (e : Abrupt) : Prop := ∀ n, e.raisedAt n = e

theorem Abrupt.placed_raisedAt (e : Abrupt) (n : NodeId) : (e.raisedAt n).Placed := by
  intro m
  cases e <;> rfl

namespace Computation

variable {α β : Type} {ev : Evaluator} {asked : Task → Prop} {given : Except Abrupt Value}

/-- When one of certain tasks comes to a given outcome, the computation is done, with a certain result. -/
def Answers (asked : Task → Prop) (given : Except Abrupt Value) (result : Except Abrupt α) : Computation α → Prop
  | .done _ _ => True
  | .brokenOff => True
  | .ask task _ resume => (asked task → ∀ w, resume given w = .done result w) ∧
    ∀ outcome w, (resume outcome w).Answers asked given result

/-- Certain tasks are not asked for. -/
def Avoids (asked : Task → Prop) : Computation α → Prop
  | .done _ _ => True
  | .brokenOff => True
  | .ask task _ resume => ¬asked task ∧ ∀ outcome w, (resume outcome w).Avoids asked

variable {result : Except Abrupt α} {c : Computation α}

/-- The next step is done with the result at once. -/
theorem Answers.andThen {result' : Except Abrupt β} {f : α → World → Computation β}
    (h : c.Answers asked given result) (hf : ∀ a w, (f a w).Answers asked given result')
    (hresult : ∀ w, (done result w).andThen f = .done result' w) : (c.andThen f).Answers asked given result' := by
  induction c with
  | done outcome w =>
    cases outcome with
    | ok a => exact hf a w
    | error e => trivial
  | ask task w resume ih =>
    refine ⟨fun htask w' => ?_, fun outcome w' => ih outcome w' (h.2 outcome w')⟩
    show (resume given w').andThen f = _
    rw [h.1 htask w']
    exact hresult w'
  | brokenOff => trivial

theorem Avoids.andThen {result' : Except Abrupt β} {f : α → World → Computation β} (h : c.Avoids asked)
    (hf : ∀ a w, (f a w).Answers asked given result') : (c.andThen f).Answers asked given result' := by
  induction c with
  | done outcome w =>
    cases outcome with
    | ok a => exact hf a w
    | error e => trivial
  | ask task w resume ih => exact ⟨fun htask => absurd htask h.1, fun outcome w' => ih outcome w' (h.2 outcome w')⟩
  | brokenOff => trivial

theorem Answers.caught (h : c.Answers asked given result) : c.caught.Answers asked given (.ok result) := by
  induction c with
  | done outcome w => trivial
  | ask task w resume ih =>
    refine ⟨fun htask w' => ?_, fun outcome w' => ih outcome w' (h.2 outcome w')⟩
    show (resume given w').caught = _
    rw [h.1 htask w']
    rfl
  | brokenOff => trivial

theorem Answers.raisedAt {n : NodeId} (h : c.Answers asked given result)
    (hresult : result.mapError (·.raisedAt n) = result) : (c.raisedAt n).Answers asked given result := by
  induction c with
  | done outcome w => cases outcome <;> trivial
  | ask task w resume ih =>
    refine ⟨fun htask w' => ?_, fun outcome w' => ih outcome w' (h.2 outcome w')⟩
    show (resume given w').raisedAt n = _
    rw [h.1 htask w']
    cases result with
    | ok a => rfl
    | error e => exact congrArg (done · w') hresult
  | brokenOff => trivial

/-- So an errand that has come to that outcome is the last one. -/
theorem Answers.takes (h : c.Answers asked given result) {before after : List Errand} {inner : Errand}
    {outcome : Except Abrupt α} {w' : World} (htakes : c.Takes ev (before ++ inner :: after) outcome w')
    (hasked : asked inner.task) (hgiven : inner.outcome = given) :
    after = [] ∧ outcome = result ∧ w' = inner.stop := by
  induction before generalizing c with
  | nil =>
    cases htakes with
    | ask hperform hrest =>
      obtain rfl : _ = _ := hgiven
      rw [h.1 hasked] at hrest
      obtain ⟨rfl, rfl, rfl⟩ := takes_done_iff.mp hrest
      exact ⟨rfl, rfl, rfl⟩
  | cons first before ih =>
    cases htakes with
    | ask hperform hrest => exact ih (h.2 _ _) hrest

end Computation

namespace Eval

variable {α β : Type} {receives : Abrupt → Prop} {asked : Task → Prop} {given : Except Abrupt Value}
  {result : Except Abrupt α} {m : Eval α}

def Answers (asked : Task → Prop) (given : Except Abrupt Value) (result : Except Abrupt α) (m : Eval α) : Prop :=
  ∀ w, (m w).Answers asked given result

def Avoids (asked : Task → Prop) (m : Eval α) : Prop := ∀ w, (m w).Avoids asked

theorem Answers.bind {result' : Except Abrupt β} {f : α → Eval β} (h : m.Answers asked given result)
    (hf : ∀ a, (f a).Answers asked given result')
    (hresult : ∀ w, (Computation.done result w).andThen (fun a => f a) = .done result' w) :
    (m >>= f).Answers asked given result' := fun w => (h w).andThen (fun a w' => hf a w') hresult

theorem Avoids.bind {result' : Except Abrupt β} {f : α → Eval β} (h : m.Avoids asked)
    (hf : ∀ a, (f a).Answers asked given result') : (m >>= f).Answers asked given result' := fun w =>
  (h w).andThen fun a w' => hf a w'

theorem answers_pure (a : α) : (pure a : Eval α).Answers asked given result := fun _ => trivial

/-- A step that passes on, from every world, the abrupt ends that it does not receive: what is asked for and ends
so ends the step in the same way. -/
def Passes (receives : Abrupt → Prop) (m : Eval α) : Prop :=
  ∀ e : Abrupt, e.Placed → ¬receives e → m.Answers (fun _ => True) (.error e) (.error e)

theorem passes_pure (a : α) : (pure a : Eval α).Passes receives := fun _ _ _ _ => trivial

theorem passes_abrupt (e : Abrupt) : (abrupt e : Eval α).Passes receives := fun _ _ _ _ => trivial

theorem passes_reads (f : World → α) : (reads f).Passes receives := fun _ _ _ _ => trivial

theorem passes_checks (f : World → Except Cause α) : (checks f).Passes receives := by
  intro e _ _ w
  rw [checks]
  split <;> trivial

theorem passes_ask (task : Task) : (ask task).Passes receives := fun _ _ _ _ => ⟨fun _ _ => rfl, fun _ _ => trivial⟩

theorem Passes.bind {f : α → Eval β} (h : m.Passes receives) (hf : ∀ a, (f a).Passes receives) :
    (m >>= f).Passes receives := fun e hplaced hreceives =>
  (h e hplaced hreceives).bind (fun a => hf a e hplaced hreceives) fun _ => rfl

/-- What goes on from an outcome has to pass on itself what it does not receive. -/
theorem Passes.caught {f : Except Abrupt α → Eval β} (h : m.Passes receives)
    (hf : ∀ outcome, (f outcome).Passes receives) (hpass : ∀ e, ¬receives e → f (.error e) = abrupt e) :
    (m.catching >>= f).Passes receives := fun e hplaced hreceives => by
  have hcatching : m.catching.Answers (fun _ => True) (.error e) (.ok (.error e)) := fun w =>
    (h e hplaced hreceives w).caught
  exact hcatching.bind (fun outcome => hf outcome e hplaced hreceives) fun w => congrFun (hpass e hreceives) w

theorem Passes.raisedAt (h : m.Passes receives) (n : NodeId) : (m.raisedAt n).Passes receives :=
  fun e hplaced hreceives w => (h e hplaced hreceives w).raisedAt (congrArg Except.error (hplaced n))

/-- So an errand that ends abruptly is the last one, and its end is that of the step, unless it is received. -/
theorem Passes.takes {ev : Evaluator} (h : m.Passes receives) {before after : List Errand} {inner : Errand}
    {e : Abrupt} {outcome : Except Abrupt α} {w w' : World}
    (htakes : (m w).Takes ev (before ++ inner :: after) outcome w') (hinner : inner.outcome = .error e)
    (hplaced : e.Placed) (hreceives : ¬receives e) : after = [] ∧ outcome = .error e ∧ w' = inner.stop :=
  (h e hplaced hreceives w).takes htakes trivial hinner

end Eval

namespace Context

variable {β : Type} {receives : Abrupt → Prop} {c : Context} {n : NodeId} {s : ScopeId}

theorem passes_eval (c : Context) (n : NodeId) (s : ScopeId) : (c.eval n s).Passes receives := Eval.passes_ask _

theorem passes_bind (c : Context) (n : NodeId) (value : Value) (s : ScopeId) (binding : Binding) :
    (c.bind n value s binding).Passes receives := (Eval.passes_ask _).bind fun _ => Eval.passes_pure _

theorem answers_require {asked : Task → Prop} {given : Except Abrupt Value} {result : Except Abrupt β} {key : String}
    {f : NodeId → Eval β} (hf : ∀ child, c.tree.child? n key = some child → (f child).Answers asked given result) :
    (c.require n key >>= f).Answers asked given result := by
  rw [require]
  split
  next child hchild => exact hf child hchild
  · exact fun _ => trivial

theorem answers_blockScope {asked : Task → Prop} {given : Except Abrupt Value} {result : Except Abrupt β}
    {f : ScopeId → Eval β} (hf : ∀ own, (f own).Answers asked given result) :
    (c.blockScope n s >>= f).Answers asked given result := by
  intro w
  obtain ⟨own, -, heq⟩ | ⟨-, heq⟩ := Site.openBlock_cases c n s f w
  · rw [heq]
    exact hf own w
  · rw [heq]
    exact hf _ _

theorem passes_require {key : String} {f : NodeId → Eval β} (hf : ∀ child, (f child).Passes receives) :
    (c.require n key >>= f).Passes receives := fun e hplaced hreceives =>
  answers_require fun child _ => hf child e hplaced hreceives

theorem passes_blockScope {f : ScopeId → Eval β} (hf : ∀ own, (f own).Passes receives) :
    (c.blockScope n s >>= f).Passes receives := fun e hplaced hreceives =>
  answers_blockScope fun own => hf own e hplaced hreceives

/-- Binding functions fails at worst. -/
theorem instantiateFunctions_ends (c : Context) (s : ScopeId) (list : List NodeId) (w : World) :
    ∃ w', c.instantiateFunctions s list w = .done (.ok ()) w' ∨
      ∃ cause, c.instantiateFunctions s list w = .done (.error (.of cause)) w' := by
  induction list generalizing w with
  | nil => exact ⟨w, Or.inl rfl⟩
  | cons d rest ih =>
    cases hname : c.tree.functionName? d with
    | none =>
      rw [instantiateFunctions_none hname]
      exact ih w
    | some name =>
      rw [instantiateFunctions_some hname]
      cases Closure.ofNode c.tree d s none with
      | ok closure => exact ih _
      | error cause => exact ⟨w, Or.inr ⟨cause, rfl⟩⟩

theorem passes_instantiateFunctions {list : List NodeId} {f : Unit → Eval β} (hf : (f ()).Passes receives) :
    (c.instantiateFunctions s list >>= f).Passes receives := by
  intro e hplaced hreceives w
  show ((c.instantiateFunctions s list w).andThen fun a => f a).Answers _ _ _
  obtain ⟨w', heq | ⟨cause, heq⟩⟩ := instantiateFunctions_ends c s list w
  · rw [heq]
    exact hf e hplaced hreceives w'
  · rw [heq]
    trivial

theorem passes_evalEach (c : Context) (s : ScopeId) (last : Value) (list : List NodeId) :
    (c.evalEach s last list).Passes receives := by
  induction list generalizing last with
  | nil => exact Eval.passes_pure last
  | cons statement rest ih => exact (passes_eval c statement s).bind fun value => ih value

theorem passes_evalStatements (c : Context) (n : NodeId) (key : String) (s : ScopeId) :
    (c.evalStatements n key s).Passes receives :=
  passes_instantiateFunctions (passes_evalEach c s .undefined _)

theorem passes_blockStatement (c : Context) (n : NodeId) (s : ScopeId) : (c.blockStatement n s).Passes receives :=
  passes_blockScope fun own => passes_evalStatements c n "body" own

theorem passes_ifStatement (c : Context) (n : NodeId) (s : ScopeId) : (c.ifStatement n s).Passes receives := by
  refine passes_require fun test => (passes_eval c test s).bind fun value => ?_
  split
  · exact passes_require fun consequent => passes_eval c consequent s
  · split
    next alternate _ => exact passes_eval c alternate s
    · exact Eval.passes_pure _

/-! ## Loops -/

theorem passes_forStatement (c : Context) (n : NodeId) (s : ScopeId) : (c.forStatement n s).Passes receives := by
  refine passes_blockScope fun own => passes_require fun body => ?_
  split
  next init _ => exact (passes_eval c init own).bind fun _ => Eval.passes_ask _
  · exact Eval.passes_ask _

theorem passes_whileStatement (c : Context) (n : NodeId) (s : ScopeId) :
    (c.whileStatement n s).Passes receives :=
  passes_require fun _ => passes_require fun _ => Eval.passes_ask _

theorem passes_doWhileStatement (c : Context) (n : NodeId) (s : ScopeId) :
    (c.doWhileStatement n s).Passes receives :=
  passes_require fun _ => passes_require fun _ => Eval.passes_ask _

/-- The ends of a body that a loop receives. -/
def LoopReceives (e : Abrupt) : Prop := e = .broke ∨ e = .continued

theorem passes_bodyOnce (c : Context) (body : NodeId) (s : ScopeId) : (c.bodyOnce body s).Passes LoopReceives := by
  refine (passes_eval c body s).caught (fun outcome => ?_) fun e he => ?_
  · unfold goesOn
    split
    · exact Eval.passes_pure _
    · exact Eval.passes_pure _
    · exact Eval.passes_pure _
    · exact Eval.passes_abrupt _
  · unfold LoopReceives at he
    cases e <;> simp_all [goesOn]

theorem passes_bindRound (c : Context) (left : NodeId) (value : Value) (s : ScopeId) :
    (c.bindRound left value s).Passes receives := by
  unfold bindRound
  split
  · split
    · exact passes_require fun id => passes_bind c id value s _
    · exact (Eval.passes_abrupt _).raisedAt left
  · exact passes_bind c left value s _

theorem passes_rounds (c : Context) (left body : NodeId) (s : ScopeId) (values : List Value) :
    (c.rounds left body s values).Passes LoopReceives := by
  induction values with
  | nil => exact Eval.passes_pure _
  | cons value rest ih =>
    refine (passes_bindRound c left value s).bind fun _ => (passes_bodyOnce c body s).bind fun on => ?_
    split
    · exact ih
    · exact Eval.passes_pure _

theorem passes_iteration (c : Context) (n : NodeId) (values : List Value) (s : ScopeId) :
    (c.iteration n values s).Passes LoopReceives :=
  passes_require fun left => passes_require fun body => passes_rounds c left body s values

theorem passes_forInStatement (c : Context) (n : NodeId) (s : ScopeId) :
    (c.forInStatement n s).Passes LoopReceives :=
  passes_require fun right => (passes_eval c right s).bind fun _ =>
    (Eval.passes_reads _).bind fun _ => passes_iteration c n _ s

theorem passes_forOfStatement (c : Context) (n : NodeId) (s : ScopeId) :
    (c.forOfStatement n s).Passes LoopReceives :=
  passes_require fun right => (passes_eval c right s).bind fun _ =>
    ((Eval.passes_checks _).raisedAt right).bind fun values => passes_iteration c n values s

/-! ## Switch -/

theorem passes_selectCase (c : Context) (discriminant : Value) (s : ScopeId) (cases : List (Option NodeId)) :
    (c.selectCase discriminant s cases).Passes receives := by
  induction cases with
  | nil => exact Eval.passes_pure _
  | cons case rest ih =>
    rw [selectCase]
    split
    next test _ =>
      refine (passes_eval c test s).bind fun value => ?_
      split
      · exact Eval.passes_pure _
      · exact ih
    · exact ih

theorem passes_runCases (c : Context) (s : ScopeId) (list : List NodeId) :
    (c.runCases s list).Passes (· = .broke) := by
  induction list with
  | nil => exact Eval.passes_pure _
  | cons statement rest ih =>
    refine (passes_eval c statement s).caught (fun outcome => ?_) fun e he => ?_
    · split
      · exact ih
      · exact Eval.passes_pure _
      · exact Eval.passes_abrupt _
    · cases e <;> simp_all

theorem passes_switchStatement (c : Context) (n : NodeId) (s : ScopeId) :
    (c.switchStatement n s).Passes (· = .broke) := by
  refine passes_require fun discriminant => (passes_eval c discriminant s).bind fun value =>
    passes_blockScope fun own => ?_
  rw [instantiateCases_eq]
  exact passes_instantiateFunctions ((passes_selectCase c value own _).bind fun _ => passes_runCases c own _)

/-! ## Catch clauses -/

theorem passes_catchClause (c : Context) (clause : NodeId) (thrown : Value) (s : ScopeId) :
    (c.catchClause clause thrown s).Passes receives := by
  refine passes_require fun body => passes_blockScope fun own => ?_
  split
  next param _ => exact (passes_bind c param thrown own _).bind fun _ => passes_evalStatements c body "body" own
  · exact passes_evalStatements c body "body" own

/-- A program passes on what its statements end with. -/
theorem passes_program (c : Context) (n : NodeId) (s : ScopeId) : (c.program n s).Passes receives :=
  passes_evalStatements c n "body" s

end Context

/-! ## Parts of statements -/

/-- The rules of statements that hold statements, `try` apart, with the ends of their parts that they receive. -/
inductive Rule.Holds : Rule → (Abrupt → Prop) → Prop
  | program : Holds .program fun _ => False
  | blockStatement : Holds .blockStatement fun _ => False
  | ifStatement : Holds .ifStatement fun _ => False
  | forStatement : Holds .forStatement fun _ => False
  | whileStatement : Holds .whileStatement fun _ => False
  | doWhileStatement : Holds .doWhileStatement fun _ => False
  | forInStatement : Holds .forInStatement Context.LoopReceives
  | forOfStatement : Holds .forOfStatement Context.LoopReceives
  | switchStatement : Holds .switchStatement (· = .broke)

theorem Rule.Holds.passes {rule : Rule} {receives : Abrupt → Prop} (h : rule.Holds receives) (host : Host)
    (c : Context) (n : NodeId) (s : ScopeId) : (rule.meaning host c n s).Passes receives := by
  cases h with
  | program => exact Context.passes_program c n s
  | blockStatement => exact Context.passes_blockStatement c n s
  | ifStatement => exact Context.passes_ifStatement c n s
  | forStatement => exact Context.passes_forStatement c n s
  | whileStatement => exact Context.passes_whileStatement c n s
  | doWhileStatement => exact Context.passes_doWhileStatement c n s
  | forInStatement => exact Context.passes_forInStatement c n s
  | forOfStatement => exact Context.passes_forOfStatement c n s
  | switchStatement => exact Context.passes_switchStatement c n s

/-- What they receive is a `break` or a `continue`. -/
theorem Rule.Holds.exit {rule : Rule} {receives : Abrupt → Prop} (h : rule.Holds receives) {e : Abrupt}
    (he : receives e) : Context.LoopReceives e := by
  cases h with
  | forInStatement | forOfStatement => exact he
  | switchStatement => exact Or.inl he
  | _ => exact he.elim

namespace Evaluator

variable {ev : Evaluator} {a : Activation}

theorem passes_round (ev : Evaluator) (a : Activation) (loop : Loop) (s : ScopeId) (testFirst : Bool) :
    (ev.round a loop s testFirst).Passes Context.LoopReceives := by
  have henters : (enters (ev.context a) loop s testFirst).Passes Context.LoopReceives := by
    unfold enters
    split
    · split
      · exact (Context.passes_eval _ _ s).bind fun _ => Eval.passes_pure _
      · exact Eval.passes_pure _
    · exact Eval.passes_pure _
  have hupdate : (update (ev.context a) loop s).Passes Context.LoopReceives := by
    unfold update
    split
    · exact (Context.passes_eval _ _ s).bind fun _ => Eval.passes_pure _
    · exact Eval.passes_pure _
  refine henters.bind fun starts => ?_
  split
  · refine (Context.passes_bodyOnce _ loop.body s).bind fun on => ?_
    split
    · exact hupdate.bind fun _ => Eval.passes_pure _
    · exact Eval.passes_pure _
  · exact Eval.passes_pure _

/-- What a round hands over to is the next round. -/
theorem handOver_of_round {loop : Loop} {s : ScopeId} {testFirst : Bool} {w w' : World} {errands : List Errand}
    {next : Task} (h : (ev.round a loop s testFirst w).Takes ev errands (.ok (.handOver next)) w') :
    next = .loop a loop s true := by
  obtain ⟨-, rest, starts, w₁, -, -, h⟩ := h.of_andThen
  split at h
  · obtain ⟨-, rest, on, w₂, -, -, h⟩ := h.of_andThen
    split at h
    · obtain ⟨-, rest, -, w₃, -, -, h⟩ := h.of_andThen
      cases h
      rfl
    · cases h
  · cases h

/-- The tasks of an activation that hold statements, `try` apart, with the ends of their parts that they
receive. -/
inductive Frame (ev : Evaluator) (a : Activation) : Task → (Abrupt → Prop) → Prop
  | node {n : NodeId} {s : ScopeId} {rule : Rule} {receives : Abrupt → Prop}
    (hrule : ev.rules.get? (a.tree.tag n) = some rule) (hholds : rule.Holds receives) :
    Frame ev a (.eval a n s) receives
  | loop (loop : Loop) (s : ScopeId) (testFirst : Bool) : Frame ev a (.loop a loop s testFirst) Context.LoopReceives

variable {task : Task} {w w' : World} {before after : List Errand} {inner : Errand} {e : Abrupt}
  {outcome : Except Abrupt Value}

theorem Frame.exit {receives : Abrupt → Prop} (h : ev.Frame a task receives) (he : receives e) :
    Context.LoopReceives e := by
  cases h with
  | node _ hholds => exact hholds.exit he
  | loop => exact he

/-- What ends a round so ends the loop. -/
theorem loop_answers {asked : Task → Prop} {given result : Except Abrupt Value} {loop : Loop} {s : ScopeId}
    {testFirst : Bool} (hround : ∀ testFirst, (ev.round a loop s testFirst).Answers asked given (result.map .value))
    (h : ev.Performs (.loop a loop s testFirst) w (before ++ inner :: after) outcome w')
    (hasked : asked inner.task) (hgiven : inner.outcome = given) :
    after = [] ∧ outcome = result ∧ w' = inner.stop := by
  generalize htask : Task.loop a loop s testFirst = task at h
  generalize herrands : before ++ inner :: after = errands at h
  -- by induction on the rounds; only the last one can have ended that way
  induction h generalizing testFirst before with
  | value h =>
    subst htask herrands
    obtain ⟨hafter, heq, hstop⟩ := (hround testFirst _).takes h hasked hgiven
    cases result <;> cases heq
    exact ⟨hafter, rfl, hstop⟩
  | abrupt h =>
    subst htask herrands
    obtain ⟨hafter, heq, hstop⟩ := (hround testFirst _).takes h hasked hgiven
    cases result <;> cases heq
    exact ⟨hafter, rfl, hstop⟩
  | @handOver _ next _ w₁ _ first rest _ h hrest ih =>
    subst htask
    have hnext := handOver_of_round h
    have hfirst {later : List Errand} (heq : first = before ++ inner :: later) : False := by
      rw [heq] at h
      obtain ⟨-, heq, -⟩ := (hround testFirst _).takes h hasked hgiven
      cases result <;> cases heq
    obtain ⟨later, heq, hlater⟩ | ⟨within, -, hwithin⟩ := List.append_eq_append_iff.mp herrands
    · cases later with
      | nil => exact @ih [] true hnext.symm hlater
      | cons errand later =>
        cases hlater
        exact (hfirst heq).elim
    · exact ih hnext.symm hwithin.symm

/-- **A statement passes on** the abrupt end of a part, unless it receives it: nothing else is done, and it ends
in the same way. -/
theorem passed_on {receives : Abrupt → Prop} (hframe : ev.Frame a task receives)
    (h : ev.Performs task w (before ++ inner :: after) outcome w') (hinner : inner.outcome = .error e)
    (hplaced : e.Placed) (hreceives : ¬receives e) : after = [] ∧ outcome = .error e ∧ w' = inner.stop := by
  cases hframe with
  | @node n s rule _ hrule hholds =>
    rw [performs_iff_takes (m := ev.evalNode a n s) rfl, evalNode, hrule] at h
    exact ((hholds.passes ev.host (ev.context a) n s).raisedAt n).takes h hinner hplaced hreceives
  | loop loop s testFirst =>
    exact loop_answers (fun testFirst => passes_round ev a loop s testFirst e hplaced hreceives) h trivial hinner

/-- A node that is evaluated to a failure gives it a place. -/
theorem Performs.placed {n : NodeId} {s : ScopeId} {errands : List Errand}
    (h : ev.Performs (.eval a n s) w errands (.error e) w') : e.Placed := by
  have hraised {m : Eval Value} (h : ((m.raisedAt n) w).Takes ev errands (.error e) w') : e.Placed := by
    obtain ⟨given | value, heq, -⟩ := Computation.takes_raisedAt_iff.mp h
    · cases heq
      exact given.placed_raisedAt n
    · cases heq
  rw [performs_iff_takes (m := ev.evalNode a n s) rfl, evalNode] at h
  cases hrule : ev.rules.get? (a.tree.tag n) with
  | some rule =>
    rw [hrule] at h
    exact hraised h
  | none =>
    rw [hrule] at h
    exact hraised h

theorem placed_of_performed {n : NodeId} {s : ScopeId} (h : Errand.Performed ev ⟨.eval a n s, w, .error e, w'⟩) :
    e.Placed := by
  obtain ⟨errands, hperforms⟩ := h.performs
  exact hperforms.placed

end Evaluator

end ScriptCore

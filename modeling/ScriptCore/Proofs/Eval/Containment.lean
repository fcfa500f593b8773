import ScriptCore.Proofs.Eval.Ending
import ScriptCore.Proofs.Eval.Limits

/-!
# What a call contains

A call receives the `return` of its body, and makes a failure of a `break` or `continue` that leaves the
body. Its parameters are bound before that, outside this protection: an exit from the default or from the
pattern of a parameter leaves the call as it is (`Evaluator.call_exits`). It is the only way for an exit
to leave a call.
-/
namespace ScriptCore

/-- The exits: ends that a loop, a switch or a call around receives. -/
def Abrupt.isExit : Abrupt → Bool
  | .returned _ | .broke | .continued => true
  | .failure _ | .threw _ => false

/-- What binding a parameter asks for: the value of its default, and the binding of a pattern. -/
inductive Param.Asks (param : Param) (a : Activation) (scope : ScopeId) : Task → Prop
  | default {node : NodeId} (h : param.default = some node) : param.Asks a scope (.eval a node scope)
  | pattern (h : param.name = none) (value : Value) :
    param.Asks a scope (.bind a param.target value scope (.declare scope))

namespace Evaluator

variable {ev : Evaluator} {entries : List (Task × World)} {c : Context} {scope : ScopeId}
  {w w' : World} {e : Abrupt}

/-- A task is performed as one of the entries, and ends so. -/
def PerformedTo (ev : Evaluator) (entries : List (Task × World)) (task : Task)
    (outcome : Except Abrupt Value) (w' : World) : Prop :=
  ∃ start used, (task, start) ∈ entries ∧ ev.perform used task start = .ended (outcome, w')

theorem performedTo_of_ask {task : Task} {outcome : Except Abrupt Value}
    (h : (Eval.ask task w).Ends ev entries outcome w') : ev.PerformedTo entries task outcome w' := by
  cases h with
  | ask hmem hperform hrest =>
    cases hrest
    exact ⟨w, _, hmem, hperform⟩

/-! ## Parameters -/

/-- Choosing what a parameter is given does not fail. -/
theorem argumentFor_ends {param : Param} {args : List Value} {outcome : Except Abrupt Value}
    (h : (argumentFor param args w).Ends ev entries outcome w') : ∃ given, outcome = .ok given := by
  rw [argumentFor] at h
  split at h <;> cases h <;> exact ⟨_, rfl⟩

theorem valueFor_ends_error {param : Param} {given : Value}
    (h : (valueFor c scope param given w).Ends ev entries (.error e) w') :
    ∃ task, param.Asks c.toActivation scope task ∧ ev.PerformedTo entries task (.error e) w' := by
  cases hdefault : param.default with
  | none =>
    rw [valueFor, hdefault] at h
    cases h
  | some default =>
    simp only [valueFor, hdefault] at h
    split at h
    · exact ⟨_, .default hdefault, performedTo_of_ask h⟩
    · cases h

theorem bindParameter_ends_error {param : Param} {value : Value}
    (h : (bindParameter c scope param value w).Ends ev entries (.error e) w') :
    ∃ task, param.Asks c.toActivation scope task ∧ ev.PerformedTo entries task (.error e) w' := by
  cases hname : param.name with
  | some name =>
    rw [bindParameter, hname] at h
    cases h
  | none =>
    simp only [bindParameter, hname] at h
    obtain ⟨_, hbind, ⟨⟩⟩ | ⟨_, _, -, hdone⟩ := h.of_andThen
    · exact ⟨_, .pattern hname value, performedTo_of_ask hbind⟩
    · cases hdone

/-- Where the binding of parameters ends abruptly, a task that one of them asked for did. -/
theorem bindParameters_ends_error {params : List Param} {args : List Value}
    (h : (bindParameters c scope params args w).Ends ev entries (.error e) w') :
    ∃ param ∈ params, ∃ task, param.Asks c.toActivation scope task ∧
      ev.PerformedTo entries task (.error e) w' := by
  induction params generalizing args w with
  | nil => cases h
  | cons param rest ih =>
    obtain ⟨_, hgiven, heq⟩ | ⟨given, w₁, -, h⟩ := h.of_andThen
    · obtain ⟨_, heq'⟩ := argumentFor_ends hgiven
      cases heq'
    obtain ⟨_, hvalue, ⟨⟩⟩ | ⟨value, w₂, -, h⟩ := h.of_andThen
    · exact ⟨param, List.mem_cons_self, valueFor_ends_error hvalue⟩
    obtain ⟨_, hbind, ⟨⟩⟩ | ⟨_, w₃, -, hrest⟩ := h.of_andThen
    · exact ⟨param, List.mem_cons_self, bindParameter_ends_error hbind⟩
    obtain ⟨found, hmem, hfound⟩ := ih hrest
    exact ⟨found, List.mem_cons_of_mem _ hmem, hfound⟩

/-! ## Calls -/

/-- However a body ended, its call does not end with an exit for it. -/
theorem resultOf_ends {closure : Closure} {inner outcome : Except Abrupt Value}
    (h : (resultOf closure inner w).Ends ev entries outcome w') :
    ∀ e, outcome = .error e → e.isExit = false := by
  rintro e rfl
  unfold resultOf at h
  split at h
  · cases h
  · cases h
  · cases h
    rfl
  · cases h
    rfl
  next other hreturned hbroke hcontinued =>
    cases h
    cases e with
    | returned value => exact absurd rfl (hreturned value)
    | broke => exact absurd rfl hbroke
    | continued => exact absurd rfl hcontinued
    | failure error => rfl
    | threw value => rfl

/-- An exit that leaves what a call does in its frame comes from its parameters. -/
theorem body_ends_exit {closure : Closure} {args : List Value}
    (h : (body c closure scope args w).Ends ev entries (.error e) w') (he : e.isExit = true) :
    ∃ param ∈ closure.params, ∃ task, param.Asks c.toActivation scope task ∧
      ev.PerformedTo entries task (.error e) w' := by
  obtain ⟨_, hparams, ⟨⟩⟩ | ⟨_, w₁, -, h⟩ := h.of_andThen
  · exact bindParameters_ends_error hparams
  obtain ⟨_, hcaught, ⟨⟩⟩ | ⟨inner, w₂, -, hresult⟩ := h.of_andThen
  · obtain ⟨_, heq, -⟩ := hcaught.of_caught
    cases heq
  · have hexit := resultOf_ends hresult e rfl
    rw [he] at hexit
    cases hexit

/-- A function of the host fails or gives a value. -/
theorem callNative_ends {name : String} {receiver : Value} {args : List Value}
    (h : (ev.callNative name receiver args w).Ends ev entries (.error e) w') : e.isExit = false := by
  rw [callNative] at h
  split at h
  · split at h <;> cases h
    rfl
  · cases h
    rfl

/-- **An exit leaves a call through its parameters only.** Whatever is called, in whatever world and with
whatever rules: a call that ends with a `return`, `break` or `continue` is a call of a closure, and the
default or the pattern of one of its parameters, evaluated in the frame of the call, ended with that very
exit, and so the call with it. -/
theorem call_exits {steps depth : Nat} {callee receiver : Value} {args : List Value} {w w' : World}
    {e : Abrupt} (hrun : ev.perform steps (.call depth callee receiver args) w = .ended (.error e, w'))
    (he : e.isExit = true) :
    ∃ id closure, callee = .closure id ∧ w.closure? id = some closure ∧
      ∃ param ∈ closure.params, ∃ task,
        param.Asks ⟨closure.tree, (ev.entered id closure receiver args w).links, depth + 1⟩
          w.scopes.size task ∧
        ev.PerformedTo (ev.performed steps (.call depth callee receiver args) w) task (.error e) w' := by
  obtain ⟨result, hends, heq⟩ := ends_of_perform (m := ev.callValue depth callee receiver args)
    (f := id) rfl hrun
  obtain rfl : result = .error e := by
    cases result with
    | ok value => cases heq
    | error inner => cases heq; rfl
  cases callee with
  | closure id =>
    cases hclosure : w.closure? id with
    | none =>
      rw [callValue_of_none ev hclosure] at hends
      cases hends
      cases he
    | some closure =>
      rw [callValue_of_some ev hclosure] at hends
      obtain hdepth | hdepth := Nat.lt_or_ge depth ev.limits.maxCallDepth
      · rw [callClosure_of_lt ev hdepth] at hends
        exact ⟨id, closure, rfl, hclosure, body_ends_exit hends he⟩
      · rw [callClosure_of_le ev hdepth] at hends
        cases hends
        cases he
  | native name =>
    have hexit := callNative_ends hends
    rw [he] at hexit
    cases hexit
  | _ => cases hends; cases he

/-- A function with a parameter whose default is a `break`, as the tree of the default and the body. -/
def breakingDefault : Tree where
  nodes := #[⟨"BreakStatement", []⟩, ⟨"BlockStatement", [("body", .list [])]⟩]
  root := 1

/-- One scope, and the closure of the function over it. -/
def breakingWorld : World where
  scopes := (ScopeGraph.addRoot {} none).2
  closures := #[{
    name := none
    selfName := none
    kind := .ordinary
    params := [⟨0, some "a", some 0, false⟩]
    node := 1
    body := 1
    expressionBody := false
    tree := breakingDefault
    scope := 0 }]

/-- Whether a run ends with a `break`. -/
def isBroken : Run (Except Abrupt Value × World) → Bool
  | .ended (.error .broke, _) => true
  | _ => false

theorem exists_of_isBroken {run : Run (Except Abrupt Value × World)} (h : isBroken run = true) :
    ∃ w, run = .ended (.error .broke, w) := by
  unfold isBroken at h
  split at h
  next w => exact ⟨w, rfl⟩
  · cases h

theorem call_exits_default : ∃ (w' : World) (param : Param) (task : Task),
    standard.perform 20 (.call 0 (.closure 0) .undefined []) breakingWorld =
        .ended (.error .broke, w') ∧
      param.Asks ⟨breakingDefault, (standard.entered 0 breakingWorld.closures[0] .undefined []
        breakingWorld).links, 1⟩ 1 task ∧
      standard.PerformedTo (standard.performed 20 (.call 0 (.closure 0) .undefined []) breakingWorld)
        task (.error .broke) w' := by
  have hbroken : isBroken (standard.perform 20 (.call 0 (.closure 0) .undefined []) breakingWorld) =
      true := by decide +kernel
  obtain ⟨w', hrun⟩ := exists_of_isBroken hbroken
  obtain ⟨id, closure, hid, hclosure, param, -, task, hasks, hdone⟩ := call_exits hrun rfl
  cases hid
  obtain rfl : breakingWorld.closures[0] = closure := Option.some.inj hclosure
  exact ⟨w', param, task, hrun, hasks, hdone⟩

end Evaluator

/-- `function f(a = break) { }`, with a statement for a default. -/
def breakingProgram : Json :=
  let param := Json.ofNode "AssignmentPattern"
    [("left", .ofName "a"), ("right", .ofNode "BreakStatement" [("label", .null)])]
  .ofNode "Program" [("body", .array [.ofNode "FunctionDeclaration" [("id", .ofName "f"),
    ("params", .array [param]), ("body", .ofNode "BlockStatement" [("body", .array [])])]])]

/-- Run a program, then call the first closure it made. -/
def Evaluator.callAfter (ev : Evaluator) (r : Resolved) (w : World) :
    Run (Except Abrupt Value × World) :=
  match ev.perform 20 (.eval ⟨r.tree, r.links, 0⟩ r.links.root r.links.rootScope) w with
  | .ended (_, w) => ev.perform 20 (.call 0 (.closure 0) .undefined []) w
  | _ => .outOfSteps

/-- A call can end with a `break`, which then is one of the caller's. -/
theorem Evaluator.call_breaks : ∃ t r w w', Tree.ofJson breakingProgram = .ok t ∧
    standard.resolve t 0 (World.newRootScope {}).2 = (.ok r, w) ∧
    standard.callAfter r w = .ended (.error .broke, w') := by
  obtain ⟨t, ht, hfound⟩ := Tree.exists_ofJson (j := breakingProgram)
    (p := fun t => standard.resolvesTo t fun r w => isBroken (standard.callAfter r w))
    (by decide +kernel)
  obtain ⟨r, w, hresolve, hbroken⟩ := exists_of_resolvesTo hfound
  obtain ⟨w', hrun⟩ := exists_of_isBroken hbroken
  exact ⟨t, r, w, w', ht, hresolve, hrun⟩

end ScriptCore

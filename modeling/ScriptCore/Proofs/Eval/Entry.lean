import ScriptCore.Proofs.Eval.SiteRules

/-!
# Entering a call

A call first makes its frame, in one go and without asking for anything: a scope, the declarations of its
body, its own name, and for an ordinary function `this` and `arguments` (`Evaluator.entered`). Then it
binds parameters and runs its body, as a step like those of the rules (`Evaluator.does_body`). The rounds
of a loop are such a step too (`Evaluator.does_round`).
-/
namespace ScriptCore

/-- Where a call starts. -/
structure Entry where
  scope : ScopeId
  links : Links
  world : World

namespace Evaluator

variable (ev : Evaluator)

/-- The world with the closure's own name bound in the scope of its call. -/
def withSelf (id : ClosureId) (closure : Closure) (scope : ScopeId) (w : World) : World :=
  match closure.selfName with
  | some name =>
    w.modifyScopes fun g => if g.hasOwn scope name then g else g.declare scope name (.closure id)
  | none => w

/-- The world with `this` and `arguments` bound in a scope that is marked as holding them. -/
def withContext (scope : ScopeId) (receiver : Value) (args : List Value) (w : World) : World :=
  let (array, w) := (w.modifyScopes fun g => g.declare scope "this" receiver).newArray args.toArray
  w.modifyScopes fun g => (g.declare scope "arguments" array).markDynamic scope

/-- The scope of a call with the declarations of its body, and the links to it. -/
def hoisted (closure : Closure) (w : World) : Hoist.State :=
  let (scope, g) := w.scopes.addChild closure.scope
  ev.resolver.resolveBody closure.tree closure.body scope g

/-- The frame of a call. -/
def entered (id : ClosureId) (closure : Closure) (receiver : Value) (args : List Value) (w : World) :
    Entry :=
  let scope := w.scopes.size
  let state := ev.hoisted closure w
  let named := withSelf id closure scope { w with scopes := state.scopes }
  ⟨scope, state.links, if closure.isArrow then named else withContext scope receiver args named⟩

/-- What a call does in its frame. -/
def body (c : Context) (closure : Closure) (scope : ScopeId) (args : List Value) : Eval Value := do
  bindParameters c scope closure.params args
  let outcome ← (c.eval closure.body scope).catching
  resultOf closure outcome

theorem bindImplicit_eq (id : ClosureId) (closure : Closure) (scope : ScopeId) (receiver : Value)
    (args : List Value) (w : World) : bindImplicit id closure scope receiver args w = .done (.ok ())
      (if closure.isArrow then withSelf id closure scope w
        else withContext scope receiver args (withSelf id closure scope w)) := by
  have hself : bindSelf id closure scope w = .done (.ok ()) (withSelf id closure scope w) := by
    rw [bindSelf, withSelf]
    cases closure.selfName <;> rfl
  have hbind : bindImplicit id closure scope receiver args w =
      (bindSelf id closure scope w).andThen fun _ w =>
        (if closure.isArrow then (pure () : Eval Unit) else do
          Eval.scopes fun g => g.declare scope "this" receiver
          let array ← Eval.makes fun w => w.newArray args.toArray
          Eval.scopes fun g => (g.declare scope "arguments" array).markDynamic scope) w := rfl
  rw [hbind, hself]
  cases closure.isArrow <;> rfl

/-- Below the limit a call makes its frame and goes on in it. -/
theorem callClosure_of_lt {depth : Nat} (hdepth : depth < ev.limits.maxCallDepth) (id : ClosureId)
    (closure : Closure) (receiver : Value) (args : List Value) (w : World) :
    ev.callClosure depth id closure receiver args w =
      body (ev.context ⟨closure.tree, (ev.entered id closure receiver args w).links, depth + 1⟩)
        closure (ev.entered id closure receiver args w).scope args
        (ev.entered id closure receiver args w).world := by
  have hbind : ev.callClosure depth id closure receiver args w =
      (ev.enterCall closure w).andThen fun entry w =>
        (bindImplicit id closure entry.1 receiver args w).andThen fun _ w =>
          body (ev.context ⟨closure.tree, entry.2, depth + 1⟩) closure entry.1 args w := by
    rw [callClosure, if_neg (Nat.not_le.mpr hdepth)]
    rfl
  have henter : ev.enterCall closure w = .done (.ok ((ev.entered id closure receiver args w).scope,
      (ev.entered id closure receiver args w).links))
      { w with scopes := (ev.hoisted closure w).scopes } := rfl
  rw [hbind, henter, Computation.andThen, bindImplicit_eq, Computation.andThen]
  rfl

theorem withSelf_closures (id : ClosureId) (closure : Closure) (scope : ScopeId) (w : World) :
    (withSelf id closure scope w).closures = w.closures := by
  rw [withSelf]
  split <;> rfl

theorem withSelf_arrays (id : ClosureId) (closure : Closure) (scope : ScopeId) (w : World) :
    (withSelf id closure scope w).arrays = w.arrays := by
  rw [withSelf]
  split <;> rfl

/-- An ordinary call makes one array, of its arguments. -/
theorem entered_arrays (id : ClosureId) {closure : Closure} (hkind : closure.isArrow = false)
    (receiver : Value) (args : List Value) (w : World) :
    (ev.entered id closure receiver args w).world.arrays = w.arrays.push args.toArray := by
  have harrays := withSelf_arrays id closure w.scopes.size { w with scopes := (ev.hoisted closure w).scopes }
  rw [entered, hkind]
  exact congrArg (fun arrays : Array (Array Value) => arrays.push args.toArray) harrays

/-- Entering a call makes no closures. -/
theorem entered_closures (id : ClosureId) (closure : Closure) (receiver : Value) (args : List Value)
    (w : World) : (ev.entered id closure receiver args w).world.closures = w.closures := by
  rw [entered]
  simp only
  split
  · exact withSelf_closures id closure _ _
  · exact withSelf_closures id closure _ _

/-- At the limit it fails. -/
theorem callClosure_of_le {depth : Nat} (hdepth : ev.limits.maxCallDepth ≤ depth) (id : ClosureId)
    (closure : Closure) (receiver : Value) (args : List Value) (w : World) :
    ev.callClosure depth id closure receiver args w =
      .done (.error (.of (.stackOverflow ev.limits.maxCallDepth))) w := by
  rw [callClosure, if_pos hdepth]
  rfl

/-- A value is called as the closure that it names in the world. -/
theorem callValue_of_some {id : ClosureId} {closure : Closure} {w : World}
    (hclosure : w.closure? id = some closure) (depth : Nat) (receiver : Value) (args : List Value) :
    ev.callValue depth (.closure id) receiver args w =
      ev.callClosure depth id closure receiver args w := by
  simp only [callValue, bind, Eval.reads, hclosure]
  rfl

theorem callValue_of_none {id : ClosureId} {w : World} (hnone : w.closure? id = none) (depth : Nat)
    (receiver : Value) (args : List Value) : ev.callValue depth (.closure id) receiver args w =
      .done (.error (.of (.notCallable (Value.closure id).typeName))) w := by
  simp only [callValue, bind, Eval.reads, hnone]
  rfl

end Evaluator

/-! ## Functions of a tree -/

/-- A closure of a function node, under whatever name it is shown. -/
structure Closure.MadeOf (t : Tree) (closure : Closure) : Prop where
  function : Tag.isFunction (t.tag closure.node) = true
  made : ∃ name shown, Closure.ofNode t closure.node closure.scope name = .ok { closure with name := shown }

namespace Closure

variable {t : Tree} {closure : Closure}

theorem ofNode_ok {n : NodeId} {s : ScopeId} {name : Option String}
    (h : ofNode t n s name = .ok closure) : closure.node = n ∧ closure.scope = s ∧ closure.tree = t ∧
      (closure.kind = .arrow ↔ t.is n "ArrowFunctionExpression" = true) ∧
      closure.params = (t.present n "params").map (paramOf t) ∧
      closure.selfName = if t.is n "FunctionExpression"
        then (t.child? n "id").bind t.identifierName? else none := by
  rw [ofNode] at h
  simp only at h
  split at h
  · cases h
  · split at h
    · cases h
    · split at h
      · cases h
      · cases h
        refine ⟨rfl, rfl, rfl, ?_, rfl, rfl⟩
        cases t.is n "ArrowFunctionExpression" <;> simp

theorem madeOf_ofNode {n : NodeId} {s : ScopeId} {name : Option String}
    (hfunction : Tag.isFunction (t.tag n) = true) (h : ofNode t n s name = .ok closure) :
    closure.MadeOf t := by
  obtain ⟨rfl, rfl, -⟩ := ofNode_ok h
  exact ⟨hfunction, name, closure.name, h⟩

theorem MadeOf.shown (h : closure.MadeOf t) (name : Option String) :
    ({ closure with name } : Closure).MadeOf t := ⟨h.function, h.made⟩

theorem MadeOf.tree_eq (h : closure.MadeOf t) : closure.tree = t := by
  obtain ⟨name, shown, hmade⟩ := h.made
  exact (ofNode_ok hmade).2.2.1

/-- A function binds the names of targets: its parameters. -/
theorem MadeOf.param (h : closure.MadeOf t) {param : Param} (hparam : param ∈ closure.params) :
    t.IsTarget param.target ∧ ∀ name, param.name = some name → t.TargetName name := by
  obtain ⟨name, shown, hmade⟩ := h.made
  have hparams : closure.params = (t.present closure.node "params").map (paramOf t) :=
    (ofNode_ok hmade).2.2.2.2.1
  rw [hparams] at hparam
  obtain ⟨p, hp, rfl⟩ := List.mem_map.mp hparam
  have htarget : t.IsTarget p := by
    refine ⟨closure.node, ?_⟩
    have hkind := h.function
    simp only [Tag.isFunction, Bool.or_eq_true, decide_eq_true_eq] at hkind
    obtain (hkind | hkind) | hkind := hkind <;> simp [Tree.targets, hkind, hp]
  have hinner {key : String} {child : NodeId} (hchild : t.child? p key = some child)
      (hkey : t.tag p = "AssignmentPattern" ∧ key = "left" ∨
        t.tag p = "RestElement" ∧ key = "argument") : t.IsTarget child := by
    refine ⟨p, ?_⟩
    obtain ⟨htag, rfl⟩ | ⟨htag, rfl⟩ := hkey <;> simp [Tree.targets, htag, hchild]
  have hall : t.IsTarget (paramOf t p).target ∧
      (paramOf t p).name = t.identifierName? (paramOf t p).target := by
    rw [paramOf]
    split
    next htag =>
      cases hchild : t.child? p "left" with
      | none => exact ⟨htarget, rfl⟩
      | some left => exact ⟨hinner hchild (Or.inl ⟨htag, rfl⟩), rfl⟩
    next htag =>
      cases hchild : t.child? p "argument" with
      | none => exact ⟨htarget, rfl⟩
      | some argument => exact ⟨hinner hchild (Or.inr ⟨htag, rfl⟩), rfl⟩
    · exact ⟨htarget, rfl⟩
  refine ⟨hall.1, fun name hname => ?_⟩
  rw [hall.2] at hname
  exact Tree.targetName_of hall.1 hname

/-- A function expression binds its own name, which is a target. -/
theorem MadeOf.selfName (h : closure.MadeOf t) {name : String} (hname : closure.selfName = some name) :
    t.TargetName name := by
  obtain ⟨given, shown, hmade⟩ := h.made
  have hself : closure.selfName = if t.is closure.node "FunctionExpression"
      then (t.child? closure.node "id").bind t.identifierName? else none :=
    (ofNode_ok hmade).2.2.2.2.2
  rw [hself] at hname
  split at hname
  next htag =>
    obtain ⟨id, hid, hidentifier⟩ := Option.bind_eq_some_iff.mp hname
    have hkind : t.tag closure.node = "FunctionExpression" := by simpa [Tree.is] using htag
    exact Tree.targetName_of ⟨closure.node, by simp [Tree.targets, hkind, hid]⟩ hidentifier
  · cases hname

end Closure

/-! ## The steps of nodes, calls and loops -/

/-- A function of a tree binds the names of targets only. -/
theorem Site.aimed_ofCall {c : Context} (limits : Limits) (links : Links) {closure : Closure}
    (hmade : closure.MadeOf c.tree) (s : ScopeId) : (Site.ofCall c limits links closure s).Aimed where
  binds h := by
    obtain ⟨-, param, hparam, rfl⟩ := h
    exact (hmade.param hparam).1
  declares h _ := h.elim
  catches h _ := h.elim
  gives h hname := by
    obtain ⟨-, param, hparam, rfl | rfl⟩ := h
    · exact Tree.targetName_of_bindingNames (hmade.param hparam).1 hname
    · exact (hmade.param hparam).2 _ (Option.mem_toList.mp hname)
  assigns h := h.elim

namespace Evaluator

variable {c : Context} {limits : Limits} {links : Links} {closure : Closure} {S : ScopeId → Prop} {s : ScopeId}

theorem does_evalNode {ev : Evaluator} (hrules : ev.rules = RuleTable.default) (limits : Limits)
    (links : Links) (a : Activation) (n : NodeId) (hs : S s) :
    (Site.ofNode (ev.context a) limits links n s).Does S (fun _ => True)
      (ev.evalNode a n s) (({ ev with limits } : Evaluator).evalNode { a with links } n s) := by
  rw [evalNode, evalNode, hrules]
  have htag : ({ a with links := links } : Activation).tree.tag n = a.tree.tag n := rfl
  rw [htag]
  split
  next rule hrule => exact .raisedAt n (Rule.does_meaning (c := ev.context a) ev.host hrule limits links hs)
  · exact .raisedAt n (.abrupt _)

theorem does_argumentFor {x : Site} (param : Param) (args : List Value) :
    x.Does S (fun _ => True) (argumentFor param args) (argumentFor param args) := by
  rw [argumentFor]
  split
  · exact .newArray _
  · exact .pure trivial

theorem does_valueFor (hs : S s) (param : Param) (given : Value) :
    (Site.ofCall c limits links closure s).Does S (fun _ => True) (valueFor c s param given)
      (valueFor { c with limits := limits, links := links } s param given) := by
  rw [valueFor, valueFor]
  split
  · split
    · exact .eval trivial hs
    · exact .pure trivial
  · exact .pure trivial

theorem does_bindParameter (hs : S s) {param : Param} (hparam : param ∈ closure.params) (value : Value) :
    (Site.ofCall c limits links closure s).Does S (fun _ => True) (bindParameter c s param value)
      (bindParameter { c with limits := limits, links := links } s param value) := by
  rw [bindParameter, bindParameter]
  split
  next name heq =>
    have hgives : (Site.ofCall c limits links closure s).gives param.name.toList s :=
      ⟨rfl, param, hparam, Or.inr rfl⟩
    exact .declare (.given hgives) (by simp [heq]) value
  · have hgives : (Site.ofCall c limits links closure s).gives (c.tree.bindingNames param.target) s :=
      ⟨rfl, param, hparam, Or.inl rfl⟩
    exact .bindTo value ⟨rfl, param, hparam, rfl⟩ hs (.declare (.given hgives))

theorem does_bindParameters (hs : S s) {params : List Param} (h : params ⊆ closure.params)
    (args : List Value) :
    (Site.ofCall c limits links closure s).Does S (fun _ => True) (bindParameters c s params args)
      (bindParameters { c with limits := limits, links := links } s params args) := by
  induction params generalizing args with
  | nil => exact .pure trivial
  | cons param rest ih =>
    obtain ⟨hparam, hrest⟩ := List.cons_subset.mp h
    exact .bind (does_argumentFor param args) fun given _ =>
      .bind (does_valueFor hs param given) fun value _ =>
        .bind (does_bindParameter hs hparam value) fun _ _ => ih hrest _

theorem does_resultOf {x : Site} (closure : Closure) (outcome : Except Abrupt Value) :
    x.Does S (fun _ => True) (resultOf closure outcome) (resultOf closure outcome) := by
  unfold resultOf
  split
  · exact .pure trivial
  · exact .pure trivial
  · exact .abrupt _
  · exact .abrupt _
  · exact .abrupt _

/-- In its frame, a call does what its site allows. -/
theorem does_body (c : Context) (limits : Limits) (links : Links) (closure : Closure) (hs : S s)
    (args : List Value) :
    (Site.ofCall c limits links closure s).Does S (fun _ => True) (body c closure s args)
      (body { c with limits := limits, links := links } closure s args) :=
  .bind (does_bindParameters hs (List.Subset.refl _) args) fun _ _ =>
    .caught (.eval trivial hs) (does_resultOf closure) fun _ _ => ⟨rfl, rfl⟩

/-- How a round of a loop ends: for good, or with the next round. -/
def RoundEnds (a : Activation) (rounds : Loop) (s : ScopeId) : Ending → Prop
  | .value _ => True
  | .handOver task => task = .loop a rounds s true

theorem does_enters (rounds : Loop) (hs : S s) (testFirst : Bool) :
    (Site.ofLoop c limits links rounds).Does S (fun _ => True) (enters c rounds s testFirst)
      (enters { c with limits := limits, links := links } rounds s testFirst) := by
  rw [enters, enters]
  split
  next test htest =>
    split
    · exact .map (.eval (Loop.test_mem_nodes htest) hs) _ fun _ _ => trivial
    · exact .pure trivial
  · exact .pure trivial

theorem does_update (rounds : Loop) (hs : S s) :
    (Site.ofLoop c limits links rounds).Does S (fun _ => True) (update c rounds s)
      (update { c with limits := limits, links := links } rounds s) := by
  rw [update, update]
  split
  next update hupdate => exact .bind (.eval (Loop.update_mem_nodes hupdate) hs) fun _ _ => .pure trivial
  · exact .pure trivial

theorem does_round (ev : Evaluator) (limits : Limits) (a : Activation) (rounds : Loop) (hs : S s)
    (testFirst : Bool) :
    (Site.ofLoop (ev.context a) limits a.links rounds).Does S (RoundEnds a rounds s) (ev.round a rounds s testFirst)
      (({ ev with limits } : Evaluator).round a rounds s testFirst) := by
  refine .bind (does_enters rounds hs testFirst) fun entered _ => ?_
  split
  · refine .bind (Site.does_bodyOnce rounds.body_mem_nodes hs) fun on _ => ?_
    split
    · exact .bind (does_update rounds hs) fun _ _ => .pure rfl
    · exact .pure trivial
  · exact .pure trivial

end Evaluator

end ScriptCore

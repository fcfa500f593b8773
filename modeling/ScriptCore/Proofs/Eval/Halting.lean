import ScriptCore.Proofs.Eval.Frames
import ScriptCore.Proofs.Eval.Limits
import ScriptCore.Proofs.Hoist.Complete
import ScriptCore.Proofs.Value.Joining

/-!
# Programs without loops halt

Without `while`, `do` and `for` every evaluation comes to an end, whatever closures call each other and
whatever arrays and objects hold each other. Calls nest no deeper than the limit allows; inside a call,
a node asks for nodes under its own; and a `for…of` goes over the elements that its array had when it
started. So tasks get smaller first in the depth that is left, then in the node.
-/
namespace ScriptCore

/-- A run comes to an end, and if that is a result it is as `P` says. -/
def Run.Ends {α : Type} (P : α → Prop) : Run α → Prop
  | .ended result => P result
  | .brokeOff => True
  | .outOfSteps => False

theorem Run.Ends.mono {α : Type} {P Q : α → Prop} {run : Run α} (h : run.Ends P)
    (hPQ : ∀ result, P result → Q result) : run.Ends Q := by
  cases run with
  | ended result => exact hPQ result h
  | brokeOff => trivial
  | outOfSteps => exact h

theorem Run.Ends.ne_outOfSteps {α : Type} {P : α → Prop} {run : Run α} (h : run.Ends P) :
    run ≠ .outOfSteps := by
  rintro rfl
  exact h

/-- No loop of a tree goes on for as long as its test says. -/
def Tree.NoUnboundedLoop (t : Tree) : Prop := ∀ n, t.tag n ∉ Tag.unboundedLoops

/-- The functions of a host bring in no code that is not of the tree. -/
def Host.BringsNoCode (host : Host) (t : Tree) : Prop :=
  ∀ name native, host.native name = some native →
    ∀ receiver args w, w.ClosuresOf t → (native receiver args w).2.ClosuresOf t

theorem Host.MakesNoClosures.bringsNoCode {host : Host} (h : host.MakesNoClosures) (t : Tree) :
    host.BringsNoCode t :=
  fun name native hnative receiver args w hw => hw.of_closures (h name native hnative receiver args w)

namespace Computation

variable {α β : Type} {ev : Evaluator} {t : Tree}

/-- A computation comes to its end, since each task that it asks for comes to one. -/
def Comes (ev : Evaluator) (t : Tree) (ok : α → Prop) : Computation α → Prop
  | .done (.ok a) w => w.ClosuresOf t ∧ ok a
  | .done (.error _) w => w.ClosuresOf t
  | .ask task w resume =>
    ∃ steps, (ev.perform steps task w).Ends fun result => (resume result.1 result.2).Comes ev t ok
  | .brokenOff => True

variable {c : Computation α} {ok : α → Prop}

theorem Comes.andThen {f : α → World → Computation β} {goal : β → Prop} (h : c.Comes ev t ok)
    (hf : ∀ a w, w.ClosuresOf t → ok a → (f a w).Comes ev t goal) : (c.andThen f).Comes ev t goal := by
  induction c with
  | done outcome w =>
    cases outcome with
    | ok a => exact hf a w h.1 h.2
    | error e => exact h
  | ask task w resume ih =>
    obtain ⟨steps, hends⟩ := h
    exact ⟨steps, hends.mono fun result hresult => ih result.1 result.2 hresult⟩
  | brokenOff => trivial

theorem Comes.caught (h : c.Comes ev t ok) : c.caught.Comes ev t fun _ => True := by
  induction c with
  | done outcome w =>
    cases outcome with
    | ok a => exact ⟨h.1, trivial⟩
    | error e => exact ⟨h, trivial⟩
  | ask task w resume ih =>
    obtain ⟨steps, hends⟩ := h
    exact ⟨steps, hends.mono fun result hresult => ih result.1 result.2 hresult⟩
  | brokenOff => trivial

theorem Comes.raisedAt (h : c.Comes ev t ok) (n : NodeId) : (c.raisedAt n).Comes ev t ok := by
  induction c with
  | done outcome w => cases outcome <;> exact h
  | ask task w resume ih =>
    obtain ⟨steps, hends⟩ := h
    exact ⟨steps, hends.mono fun result hresult => ih result.1 result.2 hresult⟩
  | brokenOff => trivial

end Computation

namespace Evaluator

variable {ev : Evaluator} {t : Tree}

/-- A task comes to an end, in a world with closures of the tree only. -/
def Ends (ev : Evaluator) (t : Tree) (task : Task) (w : World) : Prop :=
  ∃ steps, (ev.perform steps task w).Ends fun result => result.2.ClosuresOf t

/-- An ending with a value. -/
def IsValue : Ending → Prop
  | .value _ => True
  | .handOver _ => False

/-- A computation that comes to its end is run to it. -/
theorem run_ends_of_comes {c : Computation Ending} (h : c.Comes ev t IsValue) :
    ∃ steps, (ev.run steps c []).Ends fun result => result.2.ClosuresOf t := by
  induction c with
  | done outcome w =>
    cases outcome with
    | ok ending =>
      cases ending with
      | value value => exact ⟨1, h.1⟩
      | handOver task => exact h.2.elim
    | error e => exact ⟨1, h⟩
  | ask task w resume ih =>
    obtain ⟨steps, hends⟩ := h
    obtain ⟨used, hused⟩ := run_ask hends.ne_outOfSteps resume
    cases hperform : ev.perform steps task w with
    | ended result =>
      rw [hperform] at hends
      obtain ⟨more, hmore⟩ := ih result.1 result.2 hends
      refine ⟨used + more, ?_⟩
      rw [hused, hperform]
      exact hmore
    | brokeOff =>
      refine ⟨used + 0, ?_⟩
      rw [hused, hperform]
      trivial
    | outOfSteps => exact absurd hperform hends.ne_outOfSteps
  | brokenOff => exact ⟨1, trivial⟩

end Evaluator

namespace Site

variable {x : Site} {ev : Evaluator}

/-- All that may be asked for at a site comes to an end. -/
structure Settled (x : Site) (ev : Evaluator) : Prop where
  bounded : ∀ rounds, ¬ x.loops rounds
  eval : ∀ n s w, x.asks n → w.ClosuresOf x.context.tree →
    ev.Ends x.context.tree (.eval x.context.toActivation n s) w
  bind : ∀ p value s binding w, x.binds p binding.declares → w.ClosuresOf x.context.tree →
    ev.Ends x.context.tree (.bind x.context.toActivation p value s binding) w
  call : ∀ callee receiver args w, w.ClosuresOf x.context.tree →
    ev.Ends x.context.tree (.call x.context.depth callee receiver args) w

end Site

namespace Eval

variable {α : Type} {ev : Evaluator} {t : Tree}

/-- From worlds with closures of the tree only, a step comes to its end. -/
def Comes (ev : Evaluator) (t : Tree) (ok : α → Prop) (m : Eval α) : Prop :=
  ∀ w, w.ClosuresOf t → (m w).Comes ev t ok

theorem comes_ask {task : Task} (h : ∀ w, w.ClosuresOf t → ev.Ends t task w) :
    Comes ev t (fun _ => True) (ask task) := by
  intro w hw
  obtain ⟨steps, hends⟩ := h w hw
  refine ⟨steps, hends.mono fun result hresult => ?_⟩
  obtain ⟨outcome, w'⟩ := result
  cases outcome with
  | ok value => exact ⟨hresult, trivial⟩
  | error e => exact hresult

theorem comes_write (base : Value) (key : String) (value : Value) (bound : Nat) :
    Comes ev t (fun _ => True) (risks fun w => w.setProperty? base key value bound) := by
  intro w hw
  rw [risks]
  split
  next a w' hwrite => exact ⟨hw.of_closures (w.setProperty?_frame hwrite).2, trivial⟩
  next cause w' hwrite => exact hw.of_closures (w.setProperty?_frame hwrite).2
  · trivial

theorem comes_delete (base : Value) (key : String) :
    Comes ev t (fun _ => True) (attempts fun w => w.deleteProperty base key) := by
  intro w hw
  have hsame := (w.deleteProperty_frame base key).2
  rw [attempts]
  split
  next a w' h =>
    rw [h] at hsame
    exact ⟨hw.of_closures hsame, trivial⟩
  next cause w' h =>
    rw [h] at hsame
    exact hw.of_closures hsame

/-- **What a site allows comes to an end**, if what may be asked for there does. -/
theorem comes_of_does {x : Site} {S : ScopeId → Prop} {ok : α → Prop} {m m' : Eval α}
    (hx : x.Settled ev) (h : x.Does S ok m m') : Comes ev x.context.tree ok m := by
  induction h with
  | pure ha => exact fun w hw => ⟨hw, ha⟩
  | abrupt e => exact fun w hw => hw
  | reads f => exact fun w hw => ⟨hw, trivial⟩
  | checks f =>
    intro w hw
    rw [checks]
    split
    · exact ⟨hw, trivial⟩
    · exact hw
  | newArray items => exact fun w hw => ⟨hw, trivial⟩
  | newObject fields => exact fun w hw => ⟨hw, trivial⟩
  | newClosure hs hfunction hclosure harrow =>
    exact fun w hw => ⟨hw.newClosure (Closure.madeOf_ofNode hfunction hclosure), trivial⟩
  | named name id => exact fun w hw => ⟨hw.named name id, trivial⟩
  | declare hlands hname value => exact fun w hw => ⟨hw, trivial⟩
  | assign hassigns value => exact fun w hw => ⟨hw, trivial⟩
  | reset hlands => exact fun w hw => ⟨hw, trivial⟩
  | write base key value => exact comes_write base key value _
  | delete base key => exact comes_delete base key
  | eval hn hs => exact comes_ask fun w hw => hx.eval _ _ w hn hw
  | @bindTo _ p s binding _ value hbinds hs haims =>
    intro w hw
    have hask := comes_ask (fun w hw => hx.bind p value s binding w hbinds hw) w hw
    exact hask.andThen fun _ w' hw' _ => ⟨hw', trivial⟩
  | call callee receiver args => exact comes_ask fun w hw => hx.call callee receiver args w hw
  | loop testFirst hloops hs => exact absurd hloops (hx.bounded _)
  | bind hm hf ihm ihf => exact fun w hw => (ihm w hw).andThen fun b w' hw' hb => ihf b hb w' hw'
  | caught hm hf hpass ihm ihf =>
    exact fun w hw => (ihm w hw).caught.andThen fun outcome w' hw' _ => ihf outcome w' hw'
  | raisedAt n hm ih => exact fun w hw => (ih w hw).raisedAt n
  | @opened _ _ n s _ f f' hn hs hf ih =>
    intro w hw
    obtain ⟨own, hown, heq⟩ | ⟨hnone, heq⟩ := Site.openBlock_cases x.context n s f w
    · rw [heq]
      exact ih own (Site.isOwn_of_some hown) w hw
    · rw [heq]
      exact ih _ (Site.isOwn_of_none hnone _) _ hw

end Eval

namespace Evaluator

variable {ev : Evaluator} {t : Tree}

section Tasks

variable (hrules : ev.rules = RuleTable.default) (hhost : ev.host.BringsNoCode t) (ht : t.Proper)
  (hloops : t.NoUnboundedLoop)

/-- A step that comes to a value ends its task. -/
theorem ends_of_value {task : Task} {w : World} {α : Type} {m : Eval α} {f : α → Value}
    (hcarry : ev.carryOut task w = (m w).andThen fun a w => .done (.ok (.value (f a))) w)
    (hm : (m w).Comes ev t fun _ => True) : ev.Ends t task w := by
  refine run_ends_of_comes ?_
  rw [hcarry]
  exact hm.andThen fun _ _ hw' _ => ⟨hw', trivial⟩

include hrules ht hloops in
/-- In an activation whose calls come to an end, nodes and bindings do: by induction on the node. -/
theorem ends_node {a : Activation} (ha : a.tree = t)
    (hcalls : ∀ callee receiver args w, w.ClosuresOf t → ev.Ends t (.call a.depth callee receiver args) w)
    (n : NodeId) : (∀ s w, w.ClosuresOf t → ev.Ends t (.eval a n s) w) ∧
      ∀ value s binding w, t.IsTarget n → w.ClosuresOf t → ev.Ends t (.bind a n value s binding) w := by
  subst ha
  induction n using Nat.strongRecOn with
  | _ n ih =>
    have heval (m : NodeId) (u : ScopeId) (w : World) (hm : a.tree.Under n m) (hw : w.ClosuresOf a.tree) :
        ev.Ends a.tree (.eval a m u) w := (ih m (ht.lt_of_under hm)).1 u w hw
    have hbind (p : NodeId) (value : Value) (u : ScopeId) (binding : Binding) (w : World)
        (hp : a.tree.Under n p) (htarget : a.tree.IsTarget p) (hw : w.ClosuresOf a.tree) :
        ev.Ends a.tree (.bind a p value u binding) w := (ih p (ht.lt_of_under hp)).2 value u binding w htarget hw
    refine ⟨fun s w hw => ?_, fun value s binding w htarget hw => ?_⟩
    · have hsettled : (Site.ofNode (ev.context a) ev.limits a.links n s).Settled ev :=
        ⟨fun _ h => hloops n h.1, fun m u w hm hw => heval m u w (Tree.under_of_evaluated hm) hw,
          fun p value u binding w hp hw => hbind p value u binding w hp.under hp.isTarget hw, hcalls⟩
      have hdoes := does_evalNode (S := fun _ => True) (s := s) hrules ev.limits a.links a n trivial
      exact ends_of_value (f := id) rfl (Eval.comes_of_does hsettled hdoes w hw)
    · have hsettled : (Site.ofPattern (ev.context a) ev.limits a.links n s binding).Settled ev :=
        ⟨fun _ h => h, fun m u w hm hw => heval m u w (Tree.under_of_patternValues hm) hw,
          fun p value u binding w hp hw => hbind p value u binding w (Tree.under_of_subpatterns hp.1)
            (Tree.isTarget_of_subpatterns hp.1) hw, hcalls⟩
      have hdoes := Site.does_bindPattern (S := fun _ => True) (ev.context a) ev.limits a.links n (s := s) trivial
        value binding
      exact ends_of_value (f := fun _ => .undefined) rfl (Eval.comes_of_does hsettled hdoes w hw)

include hhost in
theorem comes_callNative (name : String) (receiver : Value) (args : List Value) {w : World}
    (hw : w.ClosuresOf t) : (ev.callNative name receiver args w).Comes ev t fun _ => True := by
  rw [callNative]
  split
  next native hnative =>
    have hafter := hhost name native hnative receiver args w hw
    split
    next value w' h =>
      rw [h] at hafter
      exact ⟨hafter, trivial⟩
    next error w' h =>
      rw [h] at hafter
      exact hafter
  · exact hw

include hrules ht hloops in
/-- A call of a closure comes to its end if the calls inside it do. -/
theorem comes_callClosure {depth : Nat} {id : ClosureId} {closure : Closure} {w : World}
    (hcalls : depth < ev.limits.maxCallDepth → ∀ callee receiver args w, w.ClosuresOf t →
      ev.Ends t (.call (depth + 1) callee receiver args) w)
    (hw : w.ClosuresOf t) (hclosure : w.closure? id = some closure) (receiver : Value)
    (args : List Value) : (ev.callClosure depth id closure receiver args w).Comes ev t fun _ => True := by
  by_cases hdepth : depth < ev.limits.maxCallDepth
  · have hmade := hw id closure hclosure
    obtain rfl := hmade.tree_eq
    rw [callClosure_of_lt ev hdepth]
    let entry := ev.entered id closure receiver args w
    let c := ev.context ⟨closure.tree, entry.links, depth + 1⟩
    have hnode (n : NodeId) := ends_node (a := c.toActivation) hrules ht hloops rfl (hcalls hdepth) n
    have hsettled : (Site.ofCall c ev.limits c.links closure entry.scope).Settled ev := by
      refine ⟨fun _ h => h, fun n s w _ hw => (hnode n).1 s w hw, ?_, hcalls hdepth⟩
      rintro _ value s binding w ⟨-, param, hparam, rfl⟩ hw
      exact (hnode _).2 value s binding w (hmade.param hparam).1 hw
    have hdoes := does_body (S := fun _ => True) c ev.limits c.links closure (s := entry.scope) trivial args
    exact Eval.comes_of_does hsettled hdoes _ (hw.of_closures (ev.entered_closures id closure receiver args w))
  · rw [callClosure_of_le ev (Nat.le_of_not_lt hdepth)]
    exact hw

include hrules hhost ht hloops in
/-- A call comes to an end if the calls inside it do. -/
theorem ends_callValue {depth : Nat}
    (hcalls : depth < ev.limits.maxCallDepth → ∀ callee receiver args w, w.ClosuresOf t →
      ev.Ends t (.call (depth + 1) callee receiver args) w)
    (callee receiver : Value) (args : List Value) {w : World} (hw : w.ClosuresOf t) :
    ev.Ends t (.call depth callee receiver args) w := by
  refine ends_of_value (f := id) (m := ev.callValue depth callee receiver args) rfl ?_
  cases callee with
  | closure id =>
    cases hclosure : w.closure? id with
    | some closure =>
      rw [callValue_of_some ev hclosure]
      exact comes_callClosure hrules ht hloops hcalls hw hclosure receiver args
    | none =>
      rw [callValue_of_none ev hclosure]
      exact hw
  | native name => exact comes_callNative hhost name receiver args hw
  | _ => exact hw

include hrules hhost ht hloops in
/-- Calls come to an end: by induction on the depth that is left. -/
theorem ends_call (left depth : Nat) (hdepth : ev.limits.maxCallDepth ≤ depth + left)
    (callee receiver : Value) (args : List Value) {w : World} (hw : w.ClosuresOf t) :
    ev.Ends t (.call depth callee receiver args) w := by
  induction left generalizing depth callee receiver args w with
  | zero =>
    have hcalls (hlt : depth < ev.limits.maxCallDepth) : False :=
      Nat.not_lt.mpr hdepth hlt
    exact ends_callValue hrules hhost ht hloops (fun hlt => (hcalls hlt).elim) callee receiver args hw
  | succ left ih =>
    have hdeeper : ev.limits.maxCallDepth ≤ depth + 1 + left := by omega
    exact ends_callValue hrules hhost ht hloops
      (fun _ callee receiver args w hw => ih (depth + 1) hdeeper callee receiver args hw) callee receiver args hw

include hrules hhost ht hloops in
/-- So does the evaluation of any node. -/
theorem ends_eval {a : Activation} (ha : a.tree = t) (n : NodeId) (s : ScopeId) {w : World}
    (hw : w.ClosuresOf t) : ev.Ends t (.eval a n s) w := by
  have hdepth : ev.limits.maxCallDepth ≤ a.depth + ev.limits.maxCallDepth := Nat.le_add_left _ _
  have hcalls (callee receiver : Value) (args : List Value) (w : World) (hw : w.ClosuresOf t) :=
    ends_call hrules hhost ht hloops _ a.depth hdepth callee receiver args hw
  exact (ends_node hrules ht hloops ha hcalls n).1 s w hw

end Tasks

end Evaluator

/-- Joining arrays comes to its end: what is shown with as many levels as there are arrays is all there
is. -/
structure World.JoinsAll (w : World) : Prop where
  texts : ∀ levels, w.arrays.size ≤ levels → ∀ value,
    w.joined levels ∅ value = w.joined w.arrays.size ∅ value
  reads : ∀ levels, w.arrays.size ≤ levels → ∀ value target,
    w.readsWithin target levels ∅ value = w.reads value target

theorem World.joinsAll (w : World) : w.JoinsAll where
  texts _ hlevels value := (World.joined_of_le hlevels value).1
  reads _ hlevels value target := (World.joined_of_le hlevels value).2 target

namespace ScopeGraph

/-- Following parents comes to its end beneath a root: what is found with as many links as there are scopes
is all there is. -/
structure FollowsAll (root : ScopeId) (g : ScopeGraph) : Prop where
  ancestors : ∀ links, g.size ≤ links → ∀ s, root ≤ s → s < g.size →
    g.ancestorsWithin links s = g.ancestors s
  lookups : ∀ links, g.size ≤ links → ∀ s, root ≤ s → s < g.size → ∀ name,
    g.resolveWithin name links s = g.resolve? s name

theorem Framed.followsAll {kept : String → Prop} {root : ScopeId} {g : ScopeGraph}
    (h : g.Framed kept root) : g.FollowsAll root where
  ancestors _ hlinks _ hle hs := h.ancestorsWithin_eq hle hs (Nat.lt_of_lt_of_le hs hlinks)
  lookups _ hlinks _ hle hs name := h.resolveWithin_eq name hle hs (Nat.lt_of_lt_of_le hs hlinks)

end ScopeGraph

namespace Evaluator

/-- **Programs without unbounded loops halt.** An imported program without `while`, `do` and `for`, with
the default rules, under any limits and against a fresh root scope, with functions of the host that bring
in no other code: its resolution and that of every body goes all the way down and up the tree, and its
evaluation comes to an end, the same with any number of further steps. Wherever the evaluation is,
conversions to text come to theirs, whatever the arrays hold; and so do lookups, since no evaluation
moves a scope. -/
theorem halts (ev : Evaluator) (hrules : ev.rules = RuleTable.default)
    (hresolver : ev.resolver.rules = Hoist.defaultRules) (j : Json) (t : Tree)
    (ht : Tree.ofJson j = .ok t) (hhost : ev.host.BringsNoCode t) (hloops : t.NoUnboundedLoop)
    (root : ScopeId) (w w₁ : World) (hw : w.Fresh (fun _ => False) root) (r : Resolved)
    (hresolve : ev.resolve t root w = (.ok r, w₁)) :
    let start := Task.eval ⟨r.tree, r.links, 0⟩ r.links.root r.links.rootScope
    ev.resolver.Completes t ∧
    (∃ steps result, result ≠ .outOfSteps ∧ ∀ more, ev.perform (steps + more) start w₁ = result) ∧
    ∀ steps task w', (task, w') ∈ ev.performed steps start w₁ → w'.JoinsAll ∧
      (ev.host.LeavesScopes → ev.host.MakesNoClosures → w'.scopes.FollowsAll root) := by
  have hproper := Tree.ofJson_proper ht
  obtain ⟨htree, hsame⟩ := withinTree_of_resolve hresolve
  refine ⟨ev.resolver.completes hproper, ?_, fun steps task w' hmem => ⟨w'.joinsAll, ?_⟩⟩
  · have hends := ends_eval (a := ⟨r.tree, r.links, 0⟩) hrules hhost hproper hloops htree r.links.root
      r.links.rootScope (World.closuresOf_of_empty (hsame.trans hw.closures))
    obtain ⟨steps, hends⟩ := hends
    exact ⟨steps, _, hends.ne_outOfSteps, run_add hends.ne_outOfSteps⟩
  · intro hscopes hclosures
    have hnames (name : String) (_ : t.TargetName name) : ¬ False := id
    have horders := orders_program hrules hresolver hscopes hclosures hnames hw hresolve steps
    have hframed : w'.scopes.Framed (fun _ => False) root := (horders.each _ hmem).1.scopes
    exact hframed.followsAll

end Evaluator

/-- Whether no loop of a tree goes on for as long as its test says. -/
def Tree.lacksUnboundedLoops (t : Tree) : Bool :=
  (List.range t.size).all fun n => !Tag.unboundedLoops.contains (t.tag n)

theorem Tree.noUnboundedLoop_of_lacks {t : Tree} (h : t.lacksUnboundedLoops = true) :
    t.NoUnboundedLoop := by
  intro n hloop
  have htag : t.tag n ≠ "" := by
    intro htag
    rw [htag] at hloop
    exact absurd hloop (by decide)
  have hcheck := Tree.of_all_nodes h htag
  simp only [Bool.not_eq_true', ← Bool.not_eq_true, List.contains_iff_mem] at hcheck
  exact hcheck hloop

/-- `function f(x) { return f(x); } for (const x of [true]) { f(x); }` -/
def recursiveProgram : Json :=
  let block (statements : List Json) : Json := .ofNode "BlockStatement" [("body", .array statements)]
  let call := Json.ofNode "CallExpression" [("callee", .ofName "f"), ("arguments", .array [.ofName "x"])]
  let function := Json.ofNode "FunctionDeclaration" [("id", .ofName "f"), ("params", .array [.ofName "x"]),
    ("body", block [.ofNode "ReturnStatement" [("argument", call)]])]
  let declaration := Json.ofNode "VariableDeclaration" [("kind", .string "const"),
    ("declarations", .array [.ofNode "VariableDeclarator" [("id", .ofName "x")]])]
  let loop := Json.ofNode "ForOfStatement" [("left", declaration),
    ("right", .ofNode "ArrayExpression" [("elements", .array [.ofNode "Literal" [("value", .bool true)]])]),
    ("body", block [.ofNode "ExpressionStatement" [("expression", call)]])]
  .ofNode "Program" [("body", .array [function, loop])]

namespace Evaluator

theorem halts_recursion : ∃ t r w₁, Tree.ofJson recursiveProgram = .ok t ∧ t.NoUnboundedLoop ∧
    standard.resolve t 0 (World.newRootScope {}).2 = (.ok r, w₁) ∧
    let start := Task.eval ⟨r.tree, r.links, 0⟩ r.links.root r.links.rootScope
    (∃ steps, standard.perform steps start w₁ ≠ .outOfSteps) ∧
      ∀ steps task w', (task, w') ∈ standard.performed steps start w₁ → w'.scopes.FollowsAll 0 := by
  obtain ⟨t, ht, hcheck⟩ := Tree.exists_ofJson (j := recursiveProgram)
    (p := fun t => t.lacksUnboundedLoops && standard.resolvesTo t fun _ _ => true)
    (by decide +kernel)
  rw [Bool.and_eq_true] at hcheck
  obtain ⟨hlacks, hfound⟩ := hcheck
  obtain ⟨r, w₁, hresolve, -⟩ := exists_of_resolvesTo hfound
  have hloops := Tree.noUnboundedLoop_of_lacks hlacks
  have hhost := Host.standard_makesNoClosures.bringsNoCode t
  obtain ⟨-, ⟨steps, result, hresult, hsteps⟩, hcomplete⟩ := halts standard standard_rules
    standard_resolver recursiveProgram t ht hhost hloops 0 (World.newRootScope {}).2 w₁
    (World.fresh_newRootScope _) r hresolve
  refine ⟨t, r, w₁, ht, hloops, hresolve, ⟨steps, ?_⟩, fun steps task w' hmem => ?_⟩
  · exact fun hout => hresult ((hsteps 0).symm.trans hout)
  · exact (hcomplete steps task w' hmem).2 Host.standard_leavesScopes Host.standard_makesNoClosures

end Evaluator

end ScriptCore

import ScriptCore.Host.Standard
import ScriptCore.Proofs.Eval.Inside

/-!
# What a call leaves as it was

A call makes a scope of its own and works there: its parameters, `this`, `arguments`, hoisted names and
implicit bindings are cells of scopes that the call or a call within it made. So the scopes around a call
keep their names, parents, owners and flags, and of their cells only values change, where an assignment
finds its name on the lexical chain.
-/
namespace ScriptCore

open Eval

/-- The functions of a host leave the scopes as they are. -/
def Host.LeavesScopes (host : Host) : Prop :=
  ∀ name native, host.native name = some native →
    ∀ receiver args w, (native receiver args w).2.scopes = w.scopes

namespace Evaluator

variable {ev : Evaluator} {g₀ : ScopeGraph}

/-! ## Entering a call -/

/-- The scope of a call and the links of its body are new. -/
theorem keeps_enterCall (hresolver : ev.resolver.rules = Hoist.defaultRules) (closure : Closure) :
    (ev.enterCall closure).Keeps g₀.insideContract
      (fun entered => g₀.size ≤ entered.1 ∧ entered.2.Within g₀.size) fun _ => True := by
  refine keeps_makes fun w hw => ?_
  have hopened : ScopeGraph.Changes g₀.size g₀ (w.scopes.addChild closure.scope).2 :=
    .tail hw (.opened closure.scope)
  have hscope : g₀.size ≤ (w.scopes.addChild closure.scope).1 := by
    rw [ScopeGraph.fst_addChild]
    exact ScopeGraph.Changes.size_le hw
  have hinside := Resolver.resolveBody_inside hresolver closure.tree closure.body hscope hopened
  exact ⟨hinside.scopes, hscope, hinside.links⟩

theorem stays_bindImplicit (id : ClosureId) (closure : Closure) {scope : ScopeId}
    (hs : g₀.size ≤ scope) (receiver : Value) (args : List Value) :
    (bindImplicit id closure scope receiver args).Stays g₀ := by
  have hself : (bindSelf id closure scope).Stays g₀ := by
    rw [bindSelf]
    split
    next name _ =>
      refine stays_scopes fun g _ => ?_
      split
      · exact .refl
      · exact .single (.declared hs name _)
    · exact keeps_pure trivial
  refine Keeps.bind hself fun _ _ => ?_
  split
  · exact keeps_pure trivial
  · refine Keeps.bind (stays_scopes fun _ _ => .single (.declared hs "this" receiver)) fun _ _ =>
      Keeps.bind (stays_makes fun _ => rfl) fun array _ => stays_scopes fun g _ => ?_
    exact .tail (.single (.declared hs "arguments" array)) (.marked hs)

theorem stays_callClosure (hresolver : ev.resolver.rules = Hoist.defaultRules) (depth : Nat)
    (id : ClosureId) (closure : Closure) (receiver : Value) (args : List Value) :
    (ev.callClosure depth id closure receiver args).Stays g₀ := by
  rw [callClosure]
  split
  · exact keeps_fail trivial
  · refine Keeps.bind (keeps_enterCall hresolver closure) ?_
    rintro ⟨scope, links⟩ ⟨hs, hlinks⟩
    refine Keeps.bind (stays_bindImplicit id closure hs receiver args) fun _ _ => ?_
    have hx := Site.inside_ofCall (c := ev.context ⟨closure.tree, links, depth + 1⟩) hlinks hs ev.limits
      links closure
    exact keeps_of_does hx (fun _ h => h) (does_body _ ev.limits links closure hs args)

theorem stays_callNative (hhost : ev.host.LeavesScopes) (name : String) (receiver : Value)
    (args : List Value) : (ev.callNative name receiver args).Stays g₀ := by
  intro w hw
  rw [callNative]
  split
  next native hnative =>
    have hscopes := hhost name native hnative receiver args w
    have hinv : g₀.insideContract.inv (native receiver args w).2 := by
      change ScopeGraph.Changes g₀.size g₀ (native receiver args w).2.scopes
      rw [hscopes]
      exact hw
    split
    next value w' h => rw [h] at hinv; exact ⟨hinv, trivial⟩
    next error w' h => rw [h] at hinv; exact ⟨hinv, trivial⟩
  · exact ⟨hw, trivial⟩

theorem stays_callValue (hresolver : ev.resolver.rules = Hoist.defaultRules)
    (hhost : ev.host.LeavesScopes) (depth : Nat) (callee receiver : Value) (args : List Value) :
    (ev.callValue depth callee receiver args).Stays g₀ := by
  unfold callValue
  split
  next id =>
    refine Keeps.bind (keeps_reads fun _ _ => trivial) fun found (_ : True) => ?_
    split
    next closure => exact stays_callClosure hresolver depth id closure receiver args
    · exact keeps_fail trivial
  next name => exact stays_callNative hhost name receiver args
  · exact keeps_fail trivial

/-- An evaluator with the default tables stays inside whatever task it carries out. -/
theorem inside_keptBy (hrules : ev.rules = RuleTable.default)
    (hresolver : ev.resolver.rules = Hoist.defaultRules) (hhost : ev.host.LeavesScopes) :
    g₀.insideContract.KeptBy ev := by
  intro task w htask hw
  refine Contract.settles ?_ hw
  cases task with
  | eval a node scope =>
    obtain ⟨ha, hs⟩ := htask
    have hx := Site.inside_ofNode (c := ev.context a) ha hs ev.limits a.links node
    have hdoes := does_evalNode hrules ev.limits a.links a node hs
    exact Keeps.map (keeps_of_does hx (fun _ h => h) hdoes) fun _ _ => trivial
  | bind a pattern value scope binding =>
    obtain ⟨ha, hs, hb⟩ := htask
    have hx := Site.inside_ofPattern (c := ev.context a) ha hs hb ev.limits a.links pattern
    have hdoes := Site.does_bindPattern (ev.context a) ev.limits a.links pattern hs value binding
    exact Keeps.bind (keeps_of_does hx (fun _ h => h) hdoes) fun _ _ => keeps_pure trivial
  | call depth callee receiver args =>
    exact Keeps.map (stays_callValue hresolver hhost depth callee receiver args) fun _ _ => trivial
  | loop a loop scope testFirst =>
    obtain ⟨ha, hs⟩ := htask
    have hx := Site.inside_ofLoop (c := ev.context a) ha ev.limits a.links loop
    refine (keeps_of_does hx (fun _ h => h) (does_round ev ev.limits a loop hs testFirst)).mono
      (fun ending hends => ?_) fun _ => id
    cases ending with
    | value value => trivial
    | handOver task =>
      obtain rfl : task = .loop a loop scope true := hends
      exact ⟨⟨ha, hs⟩, fun _ _ => trivial⟩

/-- **Calls do not pollute the scopes around them.** However a call ends, the scopes have only changed as
`ScopeGraph.Change` allows: scopes were opened, scopes opened since the call began got cells, owners and
flags, and assignments wrote cells that they found on the lexical chain. So each scope that was there
before has the names, parent, owner, display name and flag that it had. -/
theorem call_frame (hrules : ev.rules = RuleTable.default)
    (hresolver : ev.resolver.rules = Hoist.defaultRules) (hhost : ev.host.LeavesScopes)
    (steps depth : Nat) (callee receiver : Value) (args : List Value) (w w' : World)
    (outcome : Except Abrupt Value)
    (hrun : ev.perform steps (.call depth callee receiver args) w = .ended (outcome, w')) :
    ScopeGraph.Changes w.scopes.size w.scopes w'.scopes ∧
      ∀ s < w.scopes.size, (w.scopes.get s).SameShape (w'.scopes.get s) := by
  have hkept : w.scopes.insideContract.KeptBy ev := inside_keptBy hrules hresolver hhost
  have hstart : w.scopes.insideContract.inv w := Relation.ReflTransGen.refl
  have htask : w.scopes.insideContract.asks (.call depth callee receiver args) := trivial
  have hend := Contract.perform_ended hkept hstart htask hrun
  exact ⟨hend.1, fun s hs => ScopeGraph.Changes.sameShape hend.1 (Nat.le_refl _) hs⟩

end Evaluator

/-- The functions of the standard host leave the scopes as they are. -/
theorem Host.standard_leavesScopes : Host.standard.LeavesScopes := by
  intro name native hnative receiver args w
  have hfind : Host.Native.find? name = some native := hnative
  unfold Host.Native.find? at hfind
  split at hfind <;> cases hfind <;> rfl

namespace Evaluator

/-- `(a) => x = a`, as the tree of its body. -/
def assigningBody : Tree where
  nodes := #[⟨"Identifier", [("name", .str "x")]⟩, ⟨"Identifier", [("name", .str "a")]⟩,
    ⟨"AssignmentExpression", [("operator", .str "="), ("left", .node 0), ("right", .node 1)]⟩]
  root := 2

/-- One scope, which has a cell `x`, and the closure of `(a) => x = a` over it. -/
def assigningWorld : World where
  scopes := (ScopeGraph.addRoot {} none).2.declare 0 "x" .undefined
  closures := #[{
    name := none
    selfName := none
    kind := .arrow
    params := [⟨1, some "a", none, false⟩]
    node := 2
    body := 2
    expressionBody := true
    tree := assigningBody
    scope := 0 }]

theorem call_frame_assigning :
    ∃ outcome w', standard.perform 20 (.call 0 (.closure 0) .undefined [.str "new"]) assigningWorld
        = .ended (outcome, w') ∧
      (assigningWorld.scopes.get 0).SameShape (w'.scopes.get 0) := by
  have hended : (standard.perform 20 (.call 0 (.closure 0) .undefined [.str "new"])
      assigningWorld).hasEnded = true := by decide +kernel
  obtain ⟨⟨outcome, w'⟩, hrun⟩ := Run.eq_ended hended
  have hframe := call_frame standard_rules standard_resolver Host.standard_leavesScopes 20 0
    (.closure 0) .undefined [.str "new"] assigningWorld w' outcome hrun
  have hscope : 0 < assigningWorld.scopes.size := by decide
  exact ⟨outcome, w', hrun, hframe.2 0 hscope⟩

end Evaluator

end ScriptCore

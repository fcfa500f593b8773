import ScriptCore.Engine
import ScriptCore.Host.Standard
import ScriptCore.Proofs.Eval.OrderlyStatement

/-!
# Orderly calls and runs

A call resolves the body of its closure anew, so that the links of the call are those of the body and
the parameters lie outside of them. With the rules for all kinds of nodes, every task that an evaluator
with the default tables carries out keeps the contract of orderly evaluations (`orderly_keptBy`).
-/
namespace ScriptCore

open Eval

/-- The functions of a host make closures of grammatical functions only, if they make any. -/
def Host.KeepsClosures (host : Host) : Prop :=
  ∀ name native, host.native name = some native →
    ∀ receiver args w, w.Sound → (native receiver args w).2.Sound

/-- The functions of the standard host make no closures. -/
theorem Host.standard_keepsClosures : Host.standard.KeepsClosures := by
  intro name native hnative receiver args w hw
  have hfind : Host.Native.find? name = some native := hnative
  have hsame : (native receiver args w).2.closures = w.closures := by
    unfold Host.Native.find? at hfind
    split at hfind <;> cases hfind <;> rfl
  exact hw.of_closures hsame

namespace Activation

variable {a : Activation} {n : NodeId} {s : ScopeId}

/-- An activation with the links of a resolution from `root`. -/
theorem sound_of_stamped {t : Tree} (ht : t.Proper) {l : Links} {root : NodeId} {scope : ScopeId}
    (h : l.Stamped t root scope) (hholder : ∀ p, root ∈ t.held p → Tag.isFunction (t.tag p) = true)
    (depth : Nat) : Activation.Sound ⟨t, l, depth⟩ where
  tree := ht
  stamped := by rwa [h.root_eq, h.rootScope_eq]
  root_holder := by rwa [h.root_eq]

/-- The root of a resolution stands in the root scope. -/
theorem Sound.root_standing (ha : a.Sound) : a.Standing a.links.root a.links.rootScope where
  visited := .refl
  unsheltered h := by
    have hroot := ha.stamped.parent_root
    cases h with
    | start hp _ =>
      rw [hroot] at hp
      cases hp
    | inside hp _ =>
      rw [hroot] at hp
      cases hp
  around := by rw [Links.around, ha.stamped.parent_root]

/-- What lies outside the resolved part is placed anywhere. -/
theorem Sound.placed_apart (ha : a.Sound) (h : ¬ a.tree.Below a.links.root n) : a.Placed n s :=
  fun hvisited _ => absurd ((ha.stamped.contains_iff n).mp hvisited).below h

end Activation

namespace Evaluator

variable {ev : Evaluator} {j : Jumps}

theorem behaves_evalNode (hrules : ev.rules = RuleTable.default) {a : Activation} {n : NodeId}
    {s : ScopeId} (h : (Task.eval a n s).Fits j) : (ev.evalNode a n s).Behaves ev.host j := by
  obtain ⟨ha, hkind⟩ := h
  have hc : (ev.context a).Sound := ha
  rw [evalNode, hrules]
  split
  next rule hrule =>
    refine Behaves.raisedAt ?_ n
    rcases hkind with ⟨rfl, hexpression⟩ | hstatement | ⟨rfl, hprogram⟩
    · exact Rule.expression_behaves hrule hc hexpression
    · exact Rule.statement_behaves hrule hc hstatement
    · have htag := hprogram.derives.tag_eq rfl
      rw [htag] at hrule
      have hmem := Dict.mem_of_get?_ofList hrule
      simp at hmem
      subst hmem
      exact Context.behaves_program hc hprogram
  · exact (behaves_fail rfl).raisedAt n

/-! ## Calls -/

/-- Entering a call gives the links of a resolution of the body. -/
theorem orderly_enterCall (hresolver : ev.resolver.rules = Hoist.defaultRules) {closure : Closure}
    (hclosure : closure.Sound) (depth : Nat) :
    (ev.enterCall closure).Keeps (orderly ev.host)
      (fun entered => entered.2.root = closure.body ∧ entered.2.rootScope = entered.1 ∧
        Activation.Sound ⟨closure.tree, entered.2, depth⟩) (j.Allows ev.host) := by
  refine keeps_makes fun w hw => ?_
  have hstamped := Resolver.resolveBody_stamped hresolver hclosure.tree hclosure.body_lt
    (w.scopes.addChild closure.scope).1 (w.scopes.addChild closure.scope).2
  refine ⟨World.Sound.of_closures hw rfl, hstamped.root_eq, hstamped.rootScope_eq,
    Activation.sound_of_stamped hclosure.tree hstamped (fun p hp => ?_) depth⟩
  rw [hclosure.tree.unique_parent hp hclosure.held]
  exact hclosure.function

theorem behaves_bindImplicit (id : ClosureId) (closure : Closure) (scope : ScopeId) (receiver : Value)
    (args : List Value) : (bindImplicit id closure scope receiver args).Behaves ev.host j := by
  have hself : (bindSelf id closure scope).Behaves ev.host j := by
    rw [bindSelf]
    split
    · exact behaves_scopes _
    · exact Eval.behaves_pure _
  refine hself.bind fun _ => ?_
  split
  · exact Eval.behaves_pure _
  · exact (behaves_scopes _).bind fun _ => (behaves_makes fun _ => rfl).bind fun array =>
      behaves_scopes _

/-- Parameters lie outside the body, so they may be bound in any scope. -/
theorem behaves_bindParameters {c : Context} (hc : c.Sound) (scope : ScopeId) {params : List Param}
    (hparams : ∀ p ∈ params, p.Sound c.tree c.links.root) (args : List Value) :
    (bindParameters c scope params args).Behaves ev.host j := by
  induction params generalizing args with
  | nil => exact Eval.behaves_pure _
  | cons param rest ih =>
    have hparam := hparams param List.mem_cons_self
    have hrest := ih fun p hmem => hparams p (List.mem_cons_of_mem _ hmem)
    have hgiven : (argumentFor param args).Behaves ev.host j := by
      rw [argumentFor]
      split
      · exact behaves_makes fun _ => rfl
      · exact Eval.behaves_pure _
    have hvalue (given : Value) : (valueFor c scope param given).Behaves ev.host j := by
      rw [valueFor]
      split
      next default hdefault =>
        obtain ⟨hderives, hapart⟩ := hparam.default default hdefault
        split
        · exact Context.behaves_eval hc ⟨hderives, hc.placed_apart hapart⟩
        · exact Eval.behaves_pure _
      · exact Eval.behaves_pure _
    have hbound (value : Value) : (bindParameter c scope param value).Behaves ev.host j := by
      rw [bindParameter]
      split
      · exact behaves_scopes _
      · have hpattern : c.At (.pattern (Binding.declare scope).declares) param.target scope :=
          ⟨hparam.target, hc.placed_apart hparam.target_apart⟩
        exact Context.behaves_bind hc hpattern value
    exact hgiven.bind fun given => (hvalue given).bind fun value => (hbound value).bind fun _ => hrest _

/-- The body of a closure: a block, which may be left by `return`, or an expression. -/
theorem fits_body {a : Activation} (ha : a.Sound)
    (hbody : a.tree.Derives .arrowBody a.links.root) :
    ∃ inner, (Task.eval a a.links.root a.links.rootScope).Fits inner ∧ inner.breaks = false ∧
      inner.continues = false := by
  by_cases htag : a.tree.is a.links.root "BlockStatement" = true
  · have hstatement : a.tree.Derives (.statement .ofFunction) a.links.root := by
      refine hbody.of_production ?_
      simp only [Grammar.production, htag, if_true]
    exact ⟨.ofFunction, ⟨ha, Or.inr (Or.inl ⟨hstatement, ha.root_standing⟩)⟩, rfl, rfl⟩
  · have hexpression : a.tree.Derives .expression a.links.root := by
      refine hbody.of_production ?_
      simp only [Grammar.production, htag, if_false, Bool.false_eq_true]
    exact ⟨.never, ⟨ha, Or.inl ⟨rfl, hexpression, ha.root_standing.placed⟩⟩, rfl, rfl⟩

/-- A call receives the `return` of its body, and neither `break` nor `continue` gets there. -/
theorem behaves_resultOf (closure : Closure) {inner : Jumps} {outcome : Except Abrupt Value}
    (h : ∀ e, outcome = .error e → inner.Allows ev.host e) (hbreaks : inner.breaks = false)
    (hcontinues : inner.continues = false) : (resultOf closure outcome).Behaves ev.host j := by
  cases outcome with
  | ok value => exact Eval.behaves_pure _
  | error e =>
    have he := h e rfl
    cases e with
    | failure error => exact behaves_abrupt he
    | threw value => exact behaves_abrupt trivial
    | returned value => exact Eval.behaves_pure _
    | broke =>
      have hbroke : inner.breaks = true := he
      rw [hbreaks] at hbroke
      cases hbroke
    | continued =>
      have hcontinued : inner.continues = true := he
      rw [hcontinues] at hcontinued
      cases hcontinued

theorem behaves_callClosure (hresolver : ev.resolver.rules = Hoist.defaultRules) (depth : Nat)
    (id : ClosureId) {closure : Closure} (hclosure : closure.Sound) (receiver : Value)
    (args : List Value) : (ev.callClosure depth id closure receiver args).Behaves ev.host j := by
  rw [callClosure]
  split
  · exact behaves_fail rfl
  · refine Keeps.bind (orderly_enterCall hresolver hclosure (depth + 1)) ?_
    rintro ⟨scope, links⟩ ⟨hroot, hscope, ha⟩
    have hc : (ev.context ⟨closure.tree, links, depth + 1⟩).Sound := ha
    have hparams : ∀ p ∈ closure.params, p.Sound closure.tree links.root := by
      rw [hroot]
      exact hclosure.params
    have hbody : closure.tree.Derives .arrowBody links.root := by
      rw [hroot]
      exact hclosure.body
    obtain ⟨inner, hfits, hbreaks, hcontinues⟩ := fits_body ha hbody
    rw [hroot, hscope] at hfits
    have hrun : ((ev.context ⟨closure.tree, links, depth + 1⟩).eval closure.body scope).Behaves
        ev.host inner := Context.behaves_ask hfits fun _ h => h
    exact (behaves_bindImplicit id closure scope receiver args).bind fun _ =>
      (behaves_bindParameters hc scope hparams args).bind fun _ =>
        Keeps.bind hrun.catching fun outcome he => behaves_resultOf closure he hbreaks hcontinues

theorem behaves_callNative (hhost : ev.host.KeepsClosures) (name : String) (receiver : Value)
    (args : List Value) : (ev.callNative name receiver args).Behaves ev.host j := by
  intro w hw
  rw [callNative]
  split
  next native hnative =>
    have hsound := hhost name native hnative receiver args w hw
    split
    next value w' h =>
      rw [h] at hsound
      exact ⟨hsound, trivial⟩
    next error w' h =>
      rw [h] at hsound
      exact ⟨hsound, fun _ => ⟨name, native, receiver, args, w, error, hnative, by rw [h], rfl⟩⟩
  · exact ⟨hw, .of_cause rfl⟩

theorem behaves_callValue (hresolver : ev.resolver.rules = Hoist.defaultRules)
    (hhost : ev.host.KeepsClosures) (depth : Nat) (callee receiver : Value) (args : List Value) :
    (ev.callValue depth callee receiver args).Behaves ev.host j := by
  unfold callValue
  split
  next id =>
    have hread : (Eval.reads fun w => w.closure? id).Keeps (orderly ev.host)
        (fun found => ∀ closure, found = some closure → closure.Sound) (j.Allows ev.host) :=
      keeps_reads fun w hw closure hclosure => hw id closure hclosure
    refine Keeps.bind hread fun found hfound => ?_
    split
    next closure => exact behaves_callClosure hresolver depth id (hfound closure rfl) receiver args
    · exact behaves_fail rfl
  next name => exact behaves_callNative hhost name receiver args
  · exact behaves_fail rfl

/-! ## Loops -/

/-- A round of a loop ends the loop, or hands over to the next round. -/
theorem orderly_round {a : Activation} {loop : Loop} {s : ScopeId} {testFirst : Bool}
    (h : (Task.loop a loop s testFirst).Fits j) :
    (ev.round a loop s testFirst).Keeps (orderly ev.host)
      ((orderly ev.host).Hands fun outcome => ∀ e, outcome = .error e → j.Allows ev.host e)
      (j.Allows ev.host) := by
  obtain ⟨ha, returns, rfl, hloop⟩ := h
  have hc : (ev.context a).Sound := ha
  have henters : (enters (ev.context a) loop s testFirst).Behaves ev.host ⟨false, false, returns⟩ := by
    rw [enters]
    split
    next test htest =>
      split
      · exact (Context.behaves_eval hc (hloop.test test htest)).bind fun _ => Eval.behaves_pure _
      · exact Eval.behaves_pure _
    · exact Eval.behaves_pure _
  have hupdate : (update (ev.context a) loop s).Behaves ev.host ⟨false, false, returns⟩ := by
    rw [update]
    split
    next update hupdate =>
      exact (Context.behaves_eval hc (hloop.update update hupdate)).bind fun _ => Eval.behaves_pure _
    · exact Eval.behaves_pure _
  have hnext : (Task.loop a loop s true).Fits ⟨false, false, returns⟩ := ⟨ha, returns, rfl, hloop⟩
  refine Keeps.bind henters fun entered _ => ?_
  split
  · refine Keeps.bind (Context.behaves_bodyOnce hc hloop.body) fun on _ => ?_
    split
    · exact Keeps.bind hupdate fun _ _ => keeps_pure ⟨⟨_, hnext⟩, fun _ h => h _ hnext⟩
    · exact keeps_pure (by simp [Contract.Hands])
  · exact keeps_pure (by simp [Contract.Hands])

/-! ## All tasks -/

/-- With the default tables, whatever task is carried out keeps to the exits of its place. -/
theorem orderly_carryOut (hrules : ev.rules = RuleTable.default)
    (hresolver : ev.resolver.rules = Hoist.defaultRules) (hhost : ev.host.KeepsClosures) {task : Task}
    (h : task.Fits j) :
    (ev.carryOut task).Keeps (orderly ev.host)
      ((orderly ev.host).Hands fun outcome => ∀ e, outcome = .error e → j.Allows ev.host e)
      (j.Allows ev.host) := by
  cases task with
  | eval a n s =>
    exact Keeps.map (behaves_evalNode hrules h) fun _ _ => by simp [Contract.Hands]
  | bind a pattern value scope binding =>
    obtain ⟨ha, -, hat⟩ := h
    have hc : (ev.context a).Sound := ha
    exact Keeps.bind (Context.behaves_bindPattern hc hat value) fun _ _ =>
      keeps_pure (by simp [Contract.Hands])
  | call depth callee receiver args =>
    exact Keeps.map (behaves_callValue hresolver hhost depth callee receiver args) fun _ _ => by
      simp [Contract.Hands]
  | loop a loop s testFirst => exact orderly_round h

/-- An evaluator with the default tables keeps the contract. -/
theorem orderly_keptBy (hrules : ev.rules = RuleTable.default)
    (hresolver : ev.resolver.rules = Hoist.defaultRules) (hhost : ev.host.KeepsClosures) :
    (orderly ev.host).KeptBy ev := by
  rintro task w ⟨j, hj⟩ hw
  have hnonempty : Nonempty { inner // task.Fits inner } := ⟨⟨j, hj⟩⟩
  have hsettles (inner : { inner // task.Fits inner }) :
      (ev.carryOut task w).Meets (orderly ev.host) ((orderly ev.host).Settles fun outcome =>
        ∀ e, outcome = .error e → inner.1.Allows ev.host e) := by
    refine Contract.settles ((orderly_carryOut hrules hresolver hhost inner.2).mono (fun _ h => h) ?_) hw
    rintro e he _ ⟨⟩
    exact he
  refine (Computation.Meets.all hsettles).mono fun outcome w' hends => ?_
  cases outcome with
  | error e =>
    exact ⟨(hends ⟨j, hj⟩).1, fun inner hinner e' heq => (hends ⟨inner, hinner⟩).2 e' heq⟩
  | ok ending =>
    cases ending with
    | value value => exact ⟨(hends ⟨j, hj⟩).1, fun inner hinner e heq => by cases heq⟩
    | handOver next =>
      obtain ⟨hinv, hasks, -⟩ := hends ⟨j, hj⟩
      exact ⟨hinv, hasks, fun outcome hgives inner hinner => (hends ⟨inner, hinner⟩).2.2 outcome hgives⟩

/-! ## Programs -/

/-- A grammatical tree that was resolved is in order, and resolving it makes no closures. -/
theorem fits_program (hresolver : ev.resolver.rules = Hoist.defaultRules) {t : Tree} (ht : t.Proper)
    (hgrammar : t.Grammatical) {scope : ScopeId} {w w' : World} {r : Resolved}
    (hresolve : ev.resolve t scope w = (.ok r, w')) :
    (Task.eval ⟨r.tree, r.links, 0⟩ r.links.root r.links.rootScope).Fits .never ∧
      w'.closures = w.closures := by
  rw [resolve] at hresolve
  split at hresolve
  next state hstate =>
    cases hresolve
    have hstamped := Resolver.resolve_stamped hresolver ht hstate
    have ha := Activation.sound_of_stamped ht hstamped (fun p hp => absurd hp (ht.root_free p)) 0
    have hprogram : t.Derives .program state.links.root := by
      rw [hstamped.root_eq]
      exact hgrammar
    exact ⟨⟨ha, Or.inr (Or.inr ⟨rfl, hprogram, ha.root_standing⟩)⟩, rfl⟩
  · cases hresolve

end Evaluator

/-- The JSON of a node with the given fields. -/
def Json.ofNode (tag : String) (fields : List (String × Json)) : Json :=
  .object (("type", .string tag) :: fields)

/-- The JSON of an identifier. -/
def Json.ofName (name : String) : Json := ofNode "Identifier" [("name", .string name)]

end ScriptCore

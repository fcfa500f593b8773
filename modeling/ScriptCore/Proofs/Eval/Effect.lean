import ScriptCore.Proofs.Eval.CallFrame
import ScriptCore.Proofs.Eval.Entry
import ScriptCore.Proofs.Eval.Stretch

/-!
# What happens to a world

There are few ways in which an evaluation changes its world: it makes arrays, objects and closures, writes
and deletes properties, changes the scopes as `ScopeGraph.Change` says, and calls functions of the host.
Each stretch of every run is a series of such effects (`Evaluator.stretches_effects`), whatever the tree,
the links and the closures of the world are. And a task asks for tasks of its own activation and for calls
only, unless it is a call itself.
-/
namespace ScriptCore

/-- One effect of an evaluation on its world. -/
inductive World.Effect (ev : Evaluator) (w : World) : World → Prop
  | newArray (items : Array Value) : Effect ev w (w.newArray items).2
  | newObject (fields : Dict Value) : Effect ev w (w.newObject fields).2
  | newClosure (closure : Closure) : Effect ev w (w.newClosure closure).2
  | scopes {g : ScopeGraph} (h : ScopeGraph.Change 0 w.scopes g) : Effect ev w { w with scopes := g }
  | write {base value : Value} {key : String} {result : Except Cause Unit × World}
    (h : w.setProperty? base key value ev.limits.maxArrayLength = some result) : Effect ev w result.2
  | delete (base : Value) (key : String) : Effect ev w (w.deleteProperty base key).2
  | native {name : String} {native : Value → List Value → World → Except EvalError Value × World}
    (h : ev.host.native name = some native) (receiver : Value) (args : List Value) :
    Effect ev w (native receiver args w).2

/-- The gait of what has effects only and asks for certain tasks. -/
def Evaluator.effects (ev : Evaluator) (asked : Task → Prop) : Gait where
  moves := Relation.ReflTransGen (World.Effect ev)
  asks := asked
  refl _ := .refl
  trans := .trans

/-- All tasks of the activation may be asked for, and all calls. -/
def Activation.Admits (a : Activation) (asked : Task → Prop) : Prop :=
  ∀ task : Task, task.activation? = some a ∨ task.IsCall → asked task

/-- What a task may ask for: a call for anything, any other task for what belongs to its activation and
for calls. -/
def Task.MayAsk (task next : Task) : Prop :=
  ∀ a, task.activation? = some a → next.activation? = some a ∨ next.IsCall

theorem Task.admits_of {a : Activation} {task : Task} (h : task.activation? = some a) :
    a.Admits task.MayAsk := by
  intro next hnext b hb
  rw [h] at hb
  cases hb
  exact hnext

variable {ev : Evaluator} {asked : Task → Prop}

namespace ScopeGraph

theorem Change.any {n : Nat} {g g' : ScopeGraph} (h : Change n g g') : Change 0 g g' := by
  cases h with
  | opened parent => exact .opened parent
  | owned _ owner => exact .owned (Nat.zero_le _) owner
  | marked _ => exact .marked (Nat.zero_le _)
  | declared _ name value => exact .declared (Nat.zero_le _) name value
  | assigned _ name value hfound => exact .assigned (Nat.zero_le _) name value hfound

end ScopeGraph

/-- Changes of the scopes are effects. -/
theorem World.effects_of_changes {n : Nat} {w : World} {g : ScopeGraph}
    (h : ScopeGraph.Changes n w.scopes g) :
    Relation.ReflTransGen (World.Effect ev) w { w with scopes := g } := by
  induction h with
  | refl => exact .refl
  | tail _ hstep ih => exact ih.tail (.scopes hstep.any)

/-! ## Steps -/

namespace Eval

variable {α : Type}

/-- A step has effects only. -/
abbrev Affects (ev : Evaluator) (asked : Task → Prop) (m : Eval α) : Prop := m.Goes (ev.effects asked) fun _ => True

theorem affects_scopes {f : ScopeGraph → ScopeGraph} (h : ∀ g, ScopeGraph.Changes 0 g (f g)) :
    (scopes f).Affects ev asked := goes_scopes fun w => World.effects_of_changes (h w.scopes)

theorem affects_declare (s : ScopeId) (name : String) (value : Value) :
    (scopes fun g => g.declare s name value).Affects ev asked :=
  affects_scopes fun _ => .single (.declared (Nat.zero_le _) name value)

theorem affects_set (s : ScopeId) (name : String) (value : Value) :
    (scopes fun g => g.set s name value).Affects ev asked :=
  affects_scopes fun _ => .single (ScopeGraph.change_set (Nat.zero_le _) name value)

theorem affects_reset (s : ScopeId) (names : List String) :
    (Context.resetNames s names).Affects ev asked := by
  refine affects_scopes fun g => ?_
  induction names generalizing g with
  | nil => exact .refl
  | cons name rest ih => exact .head (.declared (Nat.zero_le s) name .undefined) (ih _)

theorem affects_reads (f : World → α) : (reads f).Affects ev asked := goes_reads fun _ => trivial

theorem affects_newArray (items : Array Value) :
    (makes fun w => w.newArray items).Affects ev asked :=
  goes_makes fun _ => ⟨.single (.newArray items), trivial⟩

theorem affects_named (name : String) (id : ClosureId) :
    (makes fun w => Context.named w name id).Affects ev asked := by
  refine goes_makes fun w => ⟨?_, trivial⟩
  rw [Context.named]
  split
  · split
    · exact .single (.newClosure _)
    · exact .refl
  · exact .refl

theorem affects_write (base : Value) (key : String) (value : Value) :
    (risks fun w => w.setProperty? base key value ev.limits.maxArrayLength).Affects ev asked :=
  goes_risks (fun _ _ h => .single (.write h)) fun _ _ _ _ => trivial

theorem affects_delete (base : Value) (key : String) :
    (attempts fun w => w.deleteProperty base key).Affects ev asked :=
  goes_attempts (fun _ => .single (.delete base key)) fun _ _ _ => trivial

/-- **What a site allows has effects only.** -/
theorem goes_of_does {x : Site} {S : ScopeId → Prop} {ok : α → Prop} {m m' : Eval α}
    (hlimits : x.context.limits = ev.limits) (hc : x.context.Admits asked)
    (h : x.Does S ok m m') : m.Goes (ev.effects asked) ok := by
  induction h with
  | pure ha => exact goes_pure ha
  | abrupt e => exact goes_abrupt e
  | reads f => exact goes_reads fun _ => trivial
  | checks f => exact goes_checks fun _ _ _ => trivial
  | newArray items => exact affects_newArray items
  | newObject fields => exact goes_makes fun w => ⟨.single (.newObject (fields w)), trivial⟩
  | newClosure hs hfunction hclosure harrow => exact goes_makes fun _ => ⟨.single (.newClosure _), trivial⟩
  | named name id => exact affects_named name id
  | declare hlands hname value => exact affects_declare _ _ value
  | assign hassigns value => exact affects_set _ _ value
  | reset hlands => exact affects_reset _ _
  | write base key value =>
    rw [hlimits]
    exact affects_write base key value
  | delete base key => exact affects_delete base key
  | eval hn hs => exact goes_ask (hc _ (Or.inl rfl))
  | @bindTo _ p s binding _ value hbinds hs haims =>
    have hask : (ask (.bind x.context.toActivation p value s binding)).Affects ev asked :=
      goes_ask (hc _ (Or.inl rfl))
    exact hask.bind fun _ _ => goes_pure trivial
  | call callee receiver args => exact goes_ask (hc _ (Or.inr trivial))
  | loop testFirst hloops hs => exact goes_ask (hc _ (Or.inl rfl))
  | bind hm hf ihm ihf => exact ihm.bind ihf
  | caught hm hf hpass ihm ihf => exact ihm.catching.bind fun outcome _ => ihf outcome
  | raisedAt n hm ih => exact ih.raisedAt n
  | @opened _ _ n s _ f f' hn hs hf ih =>
    intro w
    obtain ⟨own, hown, heq⟩ | ⟨hnone, heq⟩ := Site.openBlock_cases x.context n s f w
    · rw [heq]
      exact ih own (Site.isOwn_of_some hown) w
    · rw [heq]
      exact (ih _ (Site.isOwn_of_none hnone _) _).since (.single (.scopes (.opened s)))

end Eval

/-! ## Calls -/

namespace Evaluator

open Eval

theorem affects_enterCall (hresolver : ev.resolver.rules = Hoist.defaultRules) (closure : Closure) :
    (ev.enterCall closure).Affects ev asked := by
  refine goes_makes fun w => ⟨?_, trivial⟩
  have hopened : ScopeGraph.Changes w.scopes.size w.scopes (w.scopes.addChild closure.scope).2 :=
    .single (.opened closure.scope)
  have hscope : w.scopes.size ≤ (w.scopes.addChild closure.scope).1 := Nat.le_refl _
  exact World.effects_of_changes
    (Resolver.resolveBody_inside hresolver closure.tree closure.body hscope hopened).scopes

theorem affects_bindImplicit (id : ClosureId) (closure : Closure) (s : ScopeId) (receiver : Value)
    (args : List Value) : (bindImplicit id closure s receiver args).Affects ev asked := by
  have hself : (bindSelf id closure s).Affects ev asked := by
    rw [bindSelf]
    split
    next name _ =>
      refine affects_scopes fun g => ?_
      split
      · exact .refl
      · exact .single (.declared (Nat.zero_le s) name _)
    · exact goes_pure trivial
  refine hself.bind fun _ _ => ?_
  split
  · exact goes_pure trivial
  · refine (affects_declare s "this" receiver).bind fun _ _ => (affects_newArray _).bind fun array _ =>
      affects_scopes fun g => ?_
    exact .tail (.single (.declared (Nat.zero_le s) "arguments" array)) (.marked (Nat.zero_le s))

/-- After its scope is made, a call asks for tasks of its own activation. -/
theorem affects_frame {c : Context} (hlimits : c.limits = ev.limits) (hc : c.Admits asked) (id : ClosureId)
    (closure : Closure) (s : ScopeId) (receiver : Value) (args : List Value) : (do
      bindImplicit id closure s receiver args
      body c closure s args : Eval Value).Affects ev asked :=
  (affects_bindImplicit id closure s receiver args).bind fun _ _ =>
    goes_of_does hlimits hc (does_body (S := fun _ => True) c c.limits c.links closure trivial args)

theorem affects_callClosure (hresolver : ev.resolver.rules = Hoist.defaultRules)
    (hasked : ∀ task, asked task) (depth : Nat) (id : ClosureId) (closure : Closure) (receiver : Value)
    (args : List Value) : (ev.callClosure depth id closure receiver args).Affects ev asked := by
  rw [callClosure]
  split
  · exact goes_fail _
  · refine (affects_enterCall hresolver closure).bind fun entered _ => ?_
    have hc : (ev.context ⟨closure.tree, entered.2, depth + 1⟩).Admits asked :=
      fun task _ => hasked task
    exact affects_frame rfl hc id closure entered.1 receiver args

theorem affects_callNative (name : String) (receiver : Value) (args : List Value) :
    (ev.callNative name receiver args).Affects ev asked := by
  intro w
  rw [callNative]
  split
  next native hnative =>
    have heffect : Relation.ReflTransGen (World.Effect ev) w (native receiver args w).2 :=
      .single (.native hnative receiver args)
    split
    next value w' h =>
      rw [h] at heffect
      exact ⟨heffect, trivial⟩
    next error w' h =>
      rw [h] at heffect
      exact heffect
  · exact (ev.effects asked).refl w

theorem affects_callValue (hresolver : ev.resolver.rules = Hoist.defaultRules)
    (hasked : ∀ task, asked task) (depth : Nat) (callee receiver : Value) (args : List Value) :
    (ev.callValue depth callee receiver args).Affects ev asked := by
  unfold callValue
  split
  next id =>
    refine (affects_reads _).bind fun found _ => ?_
    split
    next closure => exact affects_callClosure hresolver hasked depth id closure receiver args
    · exact goes_fail _
  next name => exact affects_callNative name receiver args
  · exact goes_fail _

/-! ## Runs -/

/-- Whatever task is carried out has effects, and asks for what it may ask for. -/
theorem effects_keptBy (hrules : ev.rules = RuleTable.default)
    (hresolver : ev.resolver.rules = Hoist.defaultRules) :
    Gait.KeptBy (fun task => ev.effects task.MayAsk) (fun _ => True) ev where
  goes task w _ := by
    cases task with
    | eval a n s =>
      have hdoes := does_evalNode (S := fun _ => True) (s := s) hrules ev.limits a.links a n trivial
      have hgoes : (ev.evalNode a n s).Affects ev (Task.MayAsk (.eval a n s)) :=
        goes_of_does rfl (Task.admits_of rfl) hdoes
      exact Gait.hands_value hgoes id w
    | bind a pattern value s binding =>
      have hdoes := Site.does_bindPattern (S := fun _ => True) (ev.context a) ev.limits a.links pattern
        (s := s) trivial value binding
      have hgoes : ((ev.context a).bindPattern pattern value s binding).Affects ev
          (Task.MayAsk (.bind a pattern value s binding)) :=
        goes_of_does rfl (Task.admits_of rfl) hdoes
      exact hgoes.bind (fun _ _ => goes_pure trivial) w
    | call depth callee receiver args =>
      have hasked (next : Task) : Task.MayAsk (.call depth callee receiver args) next := fun a ha => nomatch ha
      exact Gait.hands_value (affects_callValue hresolver hasked depth callee receiver args) id w
    | loop a rounds s testFirst =>
      have hdoes := does_round (S := fun _ => True) (s := s) ev ev.limits a rounds trivial testFirst
      have hgoes : (ev.round a rounds s testFirst).Goes (ev.effects (Task.MayAsk (.loop a rounds s testFirst)))
          (RoundEnds a rounds s) := goes_of_does rfl (Task.admits_of rfl) hdoes
      refine hgoes.mono (fun ending hends => ?_) w
      cases ending with
      | value value => trivial
      | handOver task =>
        obtain rfl : task = .loop a rounds s true := hends
        exact fun b hb => Or.inl hb
  asks _ _ _ _ := trivial

/-- **Every stretch is a series of effects.** -/
theorem stretches_effects (hrules : ev.rules = RuleTable.default)
    (hresolver : ev.resolver.rules = Hoist.defaultRules) {steps : Nat} {task : Task} {w : World} :
    ∀ s ∈ ev.stretchesOf steps task w, Relation.ReflTransGen (World.Effect ev) s.start s.stop :=
  fun s hs => (stretchesOf_go (effects_keptBy hrules hresolver) trivial s hs).2

end Evaluator

end ScriptCore

import ScriptCore.Engine
import ScriptCore.Proofs.Eval.CallScope
import ScriptCore.Proofs.Eval.Course
import ScriptCore.Proofs.Eval.Follow
import ScriptCore.Proofs.Hoist.Targets

/-!
# Where activations come from

The links of a program are those of its resolution, and the links of a call those of the resolution of the
body of a function, against the scope that the call has made. Every closure being that of a function of a tree
that hangs together, so is every activation that a run comes to, whatever the tree
(`Evaluator.directed_performed`).
-/
namespace ScriptCore

/-- The closures of a world are those of functions of trees that hang together. -/
def World.Whole (w : World) : Prop :=
  ∀ id closure, w.closure? id = some closure → closure.tree.Proper ∧ closure.MadeOf closure.tree

/-- An activation of a tree that hangs together, with links that direct its function declarations to scopes
of the world. -/
structure Activation.Directed (a : Activation) (w : World) : Prop where
  tree : a.tree.Proper
  links : a.links.Directs a.tree w.scopes.size

/-- A task of such an activation, or a call; what it binds is a target. -/
def Task.Directed (task : Task) (w : World) : Prop :=
  match task with
  | .eval a _ _ => a.Directed w
  | .bind a pattern _ _ _ => a.Directed w ∧ a.tree.IsTarget pattern
  | .call _ _ _ _ => True
  | .loop a _ _ _ => a.Directed w

theorem Activation.Directed.later {a : Activation} {w w' : World} (h : a.Directed w)
    (hsize : w.scopes.size ≤ w'.scopes.size) : a.Directed w' := ⟨h.tree, h.links.mono hsize⟩

theorem Task.Directed.later {task : Task} {w w' : World} (h : task.Directed w)
    (hsize : w.scopes.size ≤ w'.scopes.size) : task.Directed w' := by
  cases task with
  | eval a n s => exact Activation.Directed.later h hsize
  | bind a pattern value s binding => exact ⟨h.1.later hsize, h.2⟩
  | call depth callee receiver args => trivial
  | loop a rounds s testFirst => exact Activation.Directed.later h hsize

/-- The course of runs in which every activation has been directed by a resolution. -/
def directedCourse : Course where
  inv := World.Whole
  later w w' := w.scopes.size ≤ w'.scopes.size
  asks := Task.Directed
  leaves _ _ _ := True
  refl _ := Nat.le_refl _
  trans := Nat.le_trans
  asks_later _ hlater h := h.later hlater
  leaves_later _ _ := trivial

namespace World.Whole

variable {w w' : World}

theorem of_eq (h : w.Whole) (hclosures : w'.closures = w.closures) : w'.Whole := by
  intro id closure hclosure
  rw [closure?, hclosures] at hclosure
  exact h id closure hclosure

theorem newClosure (h : w.Whole) {closure : Closure} (ht : closure.tree.Proper)
    (hmade : closure.MadeOf closure.tree) : (w.newClosure closure).2.Whole := by
  intro id found hfound
  simp only [World.closure?, World.newClosure, Array.getElem?_push] at hfound
  split at hfound
  · cases hfound
    exact ⟨ht, hmade⟩
  · exact h id found hfound

theorem named (h : w.Whole) (name : String) (id : ClosureId) : (Context.named w name id).2.Whole := by
  rw [Context.named]
  split
  next closure hclosure =>
    split
    · obtain ⟨ht, hmade⟩ := h id closure hclosure
      exact h.newClosure ht (hmade.shown (some name))
    · exact h
  · exact h

end World.Whole

/-! ## Steps -/

namespace Eval

variable {α : Type} {ok : α → Prop} {S : ScopeId → Prop} {a : Activation} {w w' : World}

/-- A step of a directed activation keeps to the course. -/
def KeepsDirected (a : Activation) (ok : α → Prop) (m : Eval α) : Prop :=
  ∀ w, w.Whole → a.Directed w → (m w).Runs directedCourse (fun value _ => ok value) w

/-- A step in one go that loses no scope and leaves the closures. -/
theorem runs_directed_done {outcome : Except Abrupt α} (hw : w.Whole)
    (hsize : w.scopes.size ≤ w'.scopes.size) (hclosures : w'.closures = w.closures) :
    (Computation.done outcome w').Runs directedCourse (fun _ _ => True) w := by
  cases outcome with
  | ok value => exact ⟨hw.of_eq hclosures, hsize, trivial⟩
  | error e => exact ⟨hw.of_eq hclosures, hsize⟩

theorem keepsDirected_scopes {f : ScopeGraph → ScopeGraph} (hf : ∀ g, g.size ≤ (f g).size) :
    KeepsDirected a (fun _ => True) (scopes f) := fun w hw _ =>
  runs_directed_done hw (hf w.scopes) rfl

theorem keepsDirected_ask {task : Task} (htask : ∀ w, a.Directed w → task.Directed w) :
    KeepsDirected a (fun _ => True) (ask task) := fun w hw ha =>
  ⟨hw, Nat.le_refl _, htask w ha, fun
    | .ok _, _, hw', _ => ⟨hw', Nat.le_refl _, trivial⟩
    | .error _, _, hw', _ => ⟨hw', Nat.le_refl _⟩⟩

theorem size_le_reset (s : ScopeId) (names : List String) (g : ScopeGraph) :
    g.size ≤ (names.foldl (fun g name => g.declare s name .undefined) g).size := by
  induction names generalizing g with
  | nil => exact Nat.le_refl _
  | cons name rest ih =>
    exact Nat.le_trans (Nat.le_of_eq (ScopeGraph.size_modify g s _).symm) (ih (g.declare s name .undefined))

/-- **What a site allows keeps to the course.** -/
theorem keepsDirected_of_does {x : Site} {m m' : Eval α} (hx : x.Aimed) (h : x.Does S ok m m') :
    KeepsDirected x.context.toActivation ok m := by
  induction h with
  | pure ha => exact fun w hw _ => ⟨hw, Nat.le_refl _, ha⟩
  | abrupt e => exact fun w hw _ => ⟨hw, Nat.le_refl _⟩
  | reads f => exact fun w hw _ => ⟨hw, Nat.le_refl _, trivial⟩
  | checks f =>
    intro w hw _
    rw [checks]
    split
    · exact ⟨hw, Nat.le_refl _, trivial⟩
    · exact ⟨hw, Nat.le_refl _⟩
  | newArray items => exact fun w hw _ => runs_directed_done hw (Nat.le_refl _) rfl
  | newObject fields => exact fun w hw _ => runs_directed_done hw (Nat.le_refl _) rfl
  | newClosure hs hfunction hclosure harrow =>
    intro w hw ha
    have hmade := Closure.madeOf_ofNode hfunction hclosure
    have htree := hmade.tree_eq
    refine ⟨hw.newClosure ?_ ?_, Nat.le_refl _, trivial⟩
    · exact htree ▸ ha.tree
    · exact htree.symm ▸ hmade
  | named name id =>
    intro w hw _
    have hsize : w.scopes.size ≤ (Context.named w name id).2.scopes.size :=
      Nat.le_of_eq (by rw [Context.named_scopes])
    exact ⟨hw.named name id, hsize, trivial⟩
  | declare hlands hname value =>
    exact keepsDirected_scopes fun g => Nat.le_of_eq (ScopeGraph.size_modify g _ _).symm
  | assign hassigns value =>
    exact keepsDirected_scopes fun g => (ScopeGraph.change_set (Nat.zero_le _) _ value).size_le
  | reset hlands => exact keepsDirected_scopes (size_le_reset _ _)
  | write base key value =>
    intro w hw _
    rw [risks]
    split
    next a w' hwrite =>
      obtain ⟨hscopes, hclosures⟩ := w.setProperty?_frame hwrite
      exact runs_directed_done hw (Nat.le_of_eq (congrArg ScopeGraph.size hscopes.symm)) hclosures
    next cause w' hwrite =>
      obtain ⟨hscopes, hclosures⟩ := w.setProperty?_frame hwrite
      exact runs_directed_done hw (Nat.le_of_eq (congrArg ScopeGraph.size hscopes.symm)) hclosures
    · trivial
  | delete base key =>
    intro w hw _
    obtain ⟨hscopes, hclosures⟩ := w.deleteProperty_frame base key
    have hsize := Nat.le_of_eq (congrArg ScopeGraph.size hscopes.symm)
    rw [attempts]
    split
    next a w' h =>
      rw [h] at hsize hclosures
      exact runs_directed_done hw hsize hclosures
    next cause w' h =>
      rw [h] at hsize hclosures
      exact runs_directed_done hw hsize hclosures
  | eval hn hs => exact keepsDirected_ask fun _ ha => ha
  | @bindTo _ p s binding _ value hbinds hs haims =>
    intro w hw ha
    have htask (w : World) (ha : x.context.toActivation.Directed w) :
        (Task.bind x.context.toActivation p value s binding).Directed w := ⟨ha, hx.binds hbinds⟩
    exact (keepsDirected_ask htask w hw ha).andThen (Nat.le_refl _) fun _ w' hw' _ _ =>
      ⟨hw', Nat.le_refl _, trivial⟩
  | call callee receiver args => exact keepsDirected_ask fun _ _ => trivial
  | loop testFirst hloops hs => exact keepsDirected_ask fun _ ha => ha
  | bind hm hf ihm ihf =>
    exact fun w hw ha => (ihm w hw ha).andThen (Nat.le_refl _) fun b w' hw' hlater hb =>
      ihf b hb w' hw' (ha.later hlater)
  | caught hm hf hpass ihm ihf =>
    exact fun w hw ha => (ihm w hw ha).caught.andThen (Nat.le_refl _) fun outcome w' hw' hlater _ =>
      ihf outcome w' hw' (ha.later hlater)
  | raisedAt n hm ih => exact fun w hw ha => (ih w hw ha).raisedAt n
  | @opened _ _ n s _ f f' hn hs hf ih =>
    intro w hw ha
    obtain ⟨own, hown, heq⟩ | ⟨hnone, heq⟩ := Site.openBlock_cases x.context n s f w
    · rw [heq]
      exact ih own (Site.isOwn_of_some hown) w hw ha
    · rw [heq]
      have hsize : w.scopes.size ≤ (w.scopes.addChild s).2.size := by
        rw [ScopeGraph.size_addChild]
        exact Nat.le_succ _
      have hrest := ih w.scopes.size (Site.isOwn_of_none hnone _) { w with scopes := (w.scopes.addChild s).2 }
        (hw.of_eq rfl) (ha.later hsize)
      exact hrest.since hsize

end Eval

/-! ## Calls -/

namespace Closure

variable {t : Tree} {closure : Closure}

theorem ofNode_body {n : NodeId} {s : ScopeId} {name : Option String} (h : ofNode t n s name = .ok closure) :
    t.child? n "body" = some closure.body := by
  rw [ofNode] at h
  simp only at h
  split at h
  · cases h
  · split at h
    · cases h
    · split at h
      · cases h
      next body hbody =>
        cases h
        exact hbody

/-- The body of a function is a node of its tree. -/
theorem MadeOf.body_lt (h : closure.MadeOf t) (ht : t.Proper) : closure.body < t.size := by
  obtain ⟨name, shown, hmade⟩ := h.made
  have hbody := ofNode_body hmade
  have hheld := Tree.held_of_child? hbody
  exact Nat.lt_trans (ht.lt_of_held hheld) (Tree.lt_size_of_held hheld)

end Closure

namespace Evaluator

variable {ev : Evaluator} {closure : Closure} {w : World}

theorem size_withSelf (id : ClosureId) (closure : Closure) (s : ScopeId) (w : World) :
    (withSelf id closure s w).scopes.size = w.scopes.size := by
  rw [withSelf]
  split
  next name _ =>
    simp only [World.modifyScopes]
    split
    · rfl
    · exact ScopeGraph.size_modify _ _ _
  · rfl

theorem size_withContext (s : ScopeId) (receiver : Value) (args : List Value) (w : World) :
    (withContext s receiver args w).scopes.size = w.scopes.size := by
  rw [scopes_withContext]
  simp [ScopeGraph.markDynamic, ScopeGraph.declare]

/-- After the declarations of its body, a call makes no more scopes for its frame. -/
theorem size_entered (id : ClosureId) (closure : Closure) (receiver : Value) (args : List Value) (w : World) :
    (ev.entered id closure receiver args w).world.scopes.size = (ev.hoisted closure w).scopes.size := by
  rw [entered]
  simp only
  split
  · exact size_withSelf _ _ _ _
  · exact (size_withContext _ _ _ _).trans (size_withSelf _ _ _ _)

/-- The links of a call are those of the resolution of the body. -/
theorem directed_entered (hresolver : ev.resolver.rules = Hoist.defaultRules) (ht : closure.tree.Proper)
    (hmade : closure.MadeOf closure.tree) (id : ClosureId) (receiver : Value) (args : List Value) (w : World)
    (depth : Nat) : Activation.Directed ⟨closure.tree, (ev.entered id closure receiver args w).links, depth⟩
      (ev.entered id closure receiver args w).world := by
  refine ⟨ht, ?_⟩
  rw [size_entered]
  change (ev.hoisted closure w).links.Directs closure.tree (ev.hoisted closure w).scopes.size
  rw [hoisted_eq]
  exact Resolver.run_directs hresolver ht (hmade.body_lt ht) (blank_opened closure w).lt (get_opened closure w).1

theorem size_le_entered (hresolver : ev.resolver.rules = Hoist.defaultRules) (id : ClosureId) (closure : Closure)
    (receiver : Value) (args : List Value) (w : World) :
    w.scopes.size ≤ (ev.entered id closure receiver args w).world.scopes.size := by
  have hopened : ScopeGraph.Changes w.scopes.size w.scopes (w.scopes.addChild closure.scope).2 :=
    .single (.opened closure.scope)
  have hinside : (ev.hoisted closure w).Inside w.scopes :=
    Resolver.resolveBody_inside hresolver closure.tree closure.body (Nat.le_refl _) hopened
  rw [size_entered]
  exact hinside.scopes.size_le

/-! ## Tasks -/

section Tasks

variable (hrules : ev.rules = RuleTable.default) (hresolver : ev.resolver.rules = Hoist.defaultRules)
  (hscopes : ev.host.LeavesScopes) (hclosures : ev.host.MakesNoClosures)

include hresolver in
/-- A call of a closure goes on in an activation that the resolution of the body directs. -/
theorem runs_directed_call (hw : w.Whole) {id : ClosureId} (hclosure : w.closure? id = some closure)
    (depth : Nat) (receiver : Value) (args : List Value) :
    (ev.callClosure depth id closure receiver args w).Runs directedCourse (fun _ _ => True) w := by
  obtain ⟨ht, hmade⟩ := hw id closure hclosure
  by_cases hdepth : depth < ev.limits.maxCallDepth
  · let entry := ev.entered id closure receiver args w
    have hsize : w.scopes.size ≤ entry.world.scopes.size := size_le_entered hresolver id closure receiver args w
    have hentered : entry.world.Whole := hw.of_eq (ev.entered_closures id closure receiver args w)
    have hdirected := directed_entered hresolver ht hmade id receiver args w (depth + 1)
    let c := ev.context ⟨closure.tree, entry.links, depth + 1⟩
    have hdoes := does_body (S := fun _ => True) c ev.limits c.links closure (s := entry.scope) trivial args
    have haimed := Site.aimed_ofCall (c := c) ev.limits c.links hmade entry.scope
    rw [callClosure_of_lt ev hdepth]
    exact (Eval.keepsDirected_of_does haimed hdoes entry.world hentered hdirected).since hsize
  · rw [callClosure_of_le ev (Nat.le_of_not_lt hdepth)]
    exact ⟨hw, Nat.le_refl _⟩

include hresolver hscopes hclosures in
theorem runs_directed_value (hw : w.Whole) (depth : Nat) (callee receiver : Value) (args : List Value) :
    (ev.callValue depth callee receiver args w).Runs directedCourse (fun _ _ => True) w := by
  cases callee with
  | closure id =>
    cases hclosure : w.closure? id with
    | none =>
      rw [callValue_of_none ev hclosure]
      exact ⟨hw, Nat.le_refl _⟩
    | some closure =>
      rw [callValue_of_some ev hclosure]
      exact runs_directed_call hresolver hw hclosure depth receiver args
  | native name =>
    have hcall : ev.callValue depth (.native name) receiver args w =
        ev.callNative name receiver args w := rfl
    rw [hcall, callNative]
    split
    next native hnative =>
      have hsize := Nat.le_of_eq (congrArg ScopeGraph.size (hscopes name native hnative receiver args w).symm)
      have hkeep := hclosures name native hnative receiver args w
      split
      next value w' h =>
        rw [h] at hsize hkeep
        exact Eval.runs_directed_done hw hsize hkeep
      next error w' h =>
        rw [h] at hsize hkeep
        exact Eval.runs_directed_done hw hsize hkeep
    · exact ⟨hw, Nat.le_refl _⟩
  | _ => exact ⟨hw, Nat.le_refl _⟩

include hrules hresolver hscopes hclosures in
/-- All tasks keep to the course. -/
theorem directed_keptBy (run : List (Task × World)) : directedCourse.KeptBy ev run := by
  intro task w _ hw htask
  refine ⟨w, Nat.le_refl _, trivial, ?_⟩
  cases task with
  | eval a n s =>
    have hdoes := does_evalNode (S := fun _ => True) (s := s) hrules ev.limits a.links a n trivial
    have haimed := Site.aimed_ofNode (ev.context a) ev.limits a.links n s
    have hruns := Eval.keepsDirected_of_does haimed hdoes w hw htask
    exact hruns.andThen (Nat.le_refl _) fun _ w' hw' _ _ => ⟨hw', Nat.le_refl _, trivial⟩
  | bind a pattern value s binding =>
    obtain ⟨ha, htarget⟩ := htask
    have hdoes := Site.does_bindPattern (S := fun _ => True) (ev.context a) ev.limits a.links pattern (s := s)
      trivial value binding
    have haimed := Site.aimed_ofPattern (ev.context a) ev.limits a.links s binding htarget
    have hruns := Eval.keepsDirected_of_does haimed hdoes w hw ha
    exact hruns.andThen (Nat.le_refl _) fun _ w' hw' _ _ => ⟨hw', Nat.le_refl _, trivial⟩
  | call depth callee receiver args =>
    have hruns := runs_directed_value hresolver hscopes hclosures hw depth callee receiver args
    exact hruns.andThen (Nat.le_refl _) fun _ w' hw' _ _ => ⟨hw', Nat.le_refl _, trivial⟩
  | loop a rounds s testFirst =>
    have hdoes := does_round (S := fun _ => True) (s := s) ev ev.limits a rounds trivial testFirst
    have haimed := Site.aimed_ofLoop (ev.context a) ev.limits a.links rounds
    have hruns := Eval.keepsDirected_of_does haimed hdoes w hw htask
    refine hruns.mono (Nat.le_refl _) fun ending w' hlater hends => ?_
    cases ending with
    | value value => trivial
    | handOver task =>
      obtain rfl : task = .loop a rounds s true := hends
      exact Activation.Directed.later htask hlater

include hrules hresolver hscopes hclosures in
/-- **Every activation is directed by a resolution**, in the program and in all calls. -/
theorem directed_performed {t : Tree} (ht : t.Proper) {scope : ScopeId} {w w₁ : World}
    (hscope : scope < w.scopes.size) (hw : w.Whole) {r : Resolved}
    (hresolve : ev.resolve t scope w = (.ok r, w₁)) (steps : Nat) :
    ∀ entry ∈ ev.performed steps (.eval ⟨r.tree, r.links, 0⟩ r.links.root r.links.rootScope) w₁,
      Task.Directed entry.1 entry.2 := by
  rw [resolve] at hresolve
  split at hresolve
  next state hstate =>
    cases hresolve
    rw [Resolver.resolve] at hstate
    split at hstate
    · cases hstate
    · cases hstate
      have hlt : scope < (w.scopes.setOwner scope (some t.root)).size :=
        Nat.lt_of_lt_of_eq hscope (ScopeGraph.size_modify _ _ _).symm
      have howner : ((w.scopes.setOwner scope (some t.root)).get scope).owner = some t.root := by
        rw [ScopeGraph.setOwner, ScopeGraph.get_modify, if_pos ⟨rfl, hscope⟩]
      let state := ev.resolver.run t t.root scope (w.scopes.setOwner scope (some t.root))
      let a : Activation := ⟨t, state.links, 0⟩
      let w₁ : World := { w with scopes := state.scopes }
      have hwhole : w₁.Whole := hw.of_eq rfl
      have ha : a.Directed w₁ := ⟨ht, Resolver.run_directs hresolver ht ht.root_lt hlt howner⟩
      have horders : directedCourse.Orders w₁ (ev.performed steps (.eval a a.links.root a.links.rootScope) w₁) :=
        Course.orders_performed (directed_keptBy hrules hresolver hscopes hclosures _) hwhole ha
      exact fun entry hentry => (horders.each entry hentry).2.2
  · cases hresolve

end Tasks

end Evaluator

end ScriptCore

import ScriptCore.Engine
import ScriptCore.Proofs.Eval.CallFrame
import ScriptCore.Proofs.Eval.Course
import ScriptCore.Proofs.Eval.Follow
import ScriptCore.Proofs.Hoist.Frames

/-!
# Frames of calls

A program runs in a frame, that of its root scope, and each call makes a frame of its own: a scope beneath
the one that the function was made in, marked and with `this` and `arguments` if the function is an
ordinary one. Whatever is evaluated in a call is evaluated in a scope that has a chain of unmarked scopes
to the scope of the call. That is the course of every run (`Evaluator.framed_keptBy`), as long as the
program does not bind the names that are kept to frames.
-/
namespace ScriptCore

/-- A task that makes a frame in a world: a call of a closure within the limit of depth. -/
def Task.Enters (maxDepth : Nat) (w : World) (closure : Closure) (receiver : Value) : Task → Prop
  | .call depth (.closure id) given _ =>
    depth < maxDepth ∧ w.closure? id = some closure ∧ given = receiver
  | _ => False

/-- The frame of a call: its scope, and for an ordinary function what `this` and `arguments` are. -/
structure ScopeGraph.Frame (kept : String → Prop) (closure : Closure) (receiver : Value)
    (arguments : ArrayId) (x : ScopeId) (g : ScopeGraph) : Prop where
  lt : x < g.size
  parent : g.parent? x = some closure.scope
  plain : closure.kind = .arrow → (g.get x).dynamic = false
  marked : closure.kind ≠ .arrow → (g.get x).dynamic = true
  this : closure.kind ≠ .arrow → kept "this" → g.getOwn? x "this" = some receiver
  arguments : closure.kind ≠ .arrow → kept "arguments" →
    g.getOwn? x "arguments" = some (.array arguments)

/-- An arrow function is evaluated somewhere in a run, over the scope that its closure captured. -/
def Closure.MadeIn (run : List (Task × World)) (closure : Closure) : Prop :=
  ∃ a w, (.eval a closure.node closure.scope, w) ∈ run

/-- The scopes of a world have frames, and its closures capture scopes beneath the root. -/
structure World.Framed (kept : String → Prop) (root : ScopeId) (t : Tree) (run : List (Task × World))
    (w : World) : Prop where
  scopes : w.scopes.Framed kept root
  closures : ∀ id closure, w.closure? id = some closure → closure.MadeOf t ∧ root ≤ closure.scope ∧
    closure.scope < w.scopes.size ∧ (closure.kind = .arrow → closure.MadeIn run)

/-- A world to run a program in: its newest scope is a root that is not marked and owns no kept name, and
there are no closures yet. -/
structure World.Fresh (kept : String → Prop) (root : ScopeId) (w : World) : Prop where
  size_eq : w.scopes.size = root + 1
  parent : w.scopes.parent? root = none
  plain : (w.scopes.get root).dynamic = false
  bare : ∀ name, kept name → w.scopes.getOwn? root name = none
  closures : w.closures = #[]

/-- An activation of the program or of a call of the run: all its scopes have chains to its first. -/
structure Activation.Framed (root : ScopeId) (t : Tree) (maxDepth : Nat) (run : List (Task × World))
    (w : World) (a : Activation) : Prop where
  tree_eq : a.tree = t
  rootScope : w.scopes.Reaches root a.links.rootScope a.links.rootScope
  scopes : ∀ node own, a.links.scope? node = some own → w.scopes.Reaches root a.links.rootScope own
  entered : a.links.rootScope = root ∨ ∃ task w₀ closure receiver, (task, w₀) ∈ run ∧
    task.Enters maxDepth w₀ closure receiver ∧ a.links.rootScope = w₀.scopes.size

/-- A task in a scope of its activation; what it binds is a target. -/
def Task.Framed (root : ScopeId) (t : Tree) (maxDepth : Nat) (run : List (Task × World)) :
    Task → World → Prop
  | .eval a _ s, w => a.Framed root t maxDepth run w ∧ w.scopes.Reaches root a.links.rootScope s
  | .bind a pattern _ s _, w => a.Framed root t maxDepth run w ∧
    w.scopes.Reaches root a.links.rootScope s ∧ t.IsTarget pattern
  | .call _ _ _ _, _ => True
  | .loop a _ s _, w => a.Framed root t maxDepth run w ∧ w.scopes.Reaches root a.links.rootScope s

/-- A call leaves its frame behind. -/
def Task.LeavesFrame (kept : String → Prop) (maxDepth : Nat) (task : Task) (w w' : World) : Prop :=
  ∀ closure receiver, task.Enters maxDepth w closure receiver →
    w'.scopes.Frame kept closure receiver w.arrays.size w.scopes.size

variable {kept : String → Prop} {root : ScopeId} {t : Tree} {maxDepth : Nat}
  {run : List (Task × World)}

namespace ScopeGraph

variable {closure : Closure} {receiver : Value} {arguments : ArrayId} {x : ScopeId} {g g' : ScopeGraph}

theorem Frame.later (h : g.Frame kept closure receiver arguments x) (hlater : g.Later kept g') :
    g'.Frame kept closure receiver arguments x where
  lt := Nat.lt_of_lt_of_le h.lt hlater.size_le
  parent := (hlater.parent_eq x h.lt).trans h.parent
  plain hkind := (hlater.dynamic_eq x h.lt).trans (h.plain hkind)
  marked hkind := (hlater.dynamic_eq x h.lt).trans (h.marked hkind)
  this hkind hname := (hlater.cell_eq x h.lt _ hname).trans (h.this hkind hname)
  arguments hkind hname := (hlater.cell_eq x h.lt _ hname).trans (h.arguments hkind hname)

end ScopeGraph

theorem Activation.Framed.later {a : Activation} {w w' : World} (h : a.Framed root t maxDepth run w)
    (hw : w.scopes.Framed kept root) (hlater : w.scopes.Later kept w'.scopes) :
    a.Framed root t maxDepth run w' where
  tree_eq := h.tree_eq
  rootScope := h.rootScope.later hw hlater
  scopes node own hown := (h.scopes node own hown).later hw hlater
  entered := h.entered

theorem Task.Framed.later {task : Task} {w w' : World} (h : task.Framed root t maxDepth run w)
    (hw : w.scopes.Framed kept root) (hlater : w.scopes.Later kept w'.scopes) :
    task.Framed root t maxDepth run w' := by
  cases task with
  | eval a n s => exact ⟨h.1.later hw hlater, h.2.later hw hlater⟩
  | bind a pattern value s binding => exact ⟨h.1.later hw hlater, h.2.1.later hw hlater, h.2.2⟩
  | call depth callee receiver args => trivial
  | loop a rounds s testFirst => exact ⟨h.1.later hw hlater, h.2.later hw hlater⟩

theorem Task.Enters.closure? {task : Task} {w : World} {closure : Closure} {receiver : Value}
    (h : task.Enters maxDepth w closure receiver) : ∃ id, w.closure? id = some closure := by
  cases task with
  | call depth callee given args =>
    cases callee with
    | closure id => exact ⟨id, h.2.1⟩
    | _ => exact h.elim
  | _ => exact h.elim

/-- The course of runs in frames. -/
def framedCourse (kept : String → Prop) (root : ScopeId) (t : Tree) (maxDepth : Nat)
    (run : List (Task × World)) : Course where
  inv := World.Framed kept root t run
  later w w' := w.scopes.Later kept w'.scopes
  asks task w := task.Framed root t maxDepth run w
  leaves := Task.LeavesFrame kept maxDepth
  refl w := .refl w.scopes
  trans := .trans
  asks_later hw hlater h := h.later hw.scopes hlater
  leaves_later hlater h closure receiver henters := (h closure receiver henters).later hlater

/-! ## Worlds -/

/-- A new root scope of an empty world is fresh. -/
theorem World.fresh_newRootScope (kept : String → Prop) :
    (World.newRootScope {}).2.Fresh kept 0 := ⟨rfl, rfl, rfl, fun _ _ => rfl, rfl⟩

theorem World.Fresh.framed {w : World} (h : w.Fresh kept root) : w.scopes.Framed kept root := by
  have hlast {s : ScopeId} (hs : s < w.scopes.size) : s ≤ root := by
    rw [h.size_eq] at hs
    exact Nat.le_of_lt_succ hs
  refine ⟨?_, h.parent, h.plain, fun s hlt hs => ?_, fun s hle hs _ => ?_⟩
  · rw [h.size_eq]
    exact Nat.lt_succ_self root
  · exact absurd hlt (Nat.not_lt.mpr (hlast hs))
  · obtain rfl : root = s := Nat.le_antisymm hle (hlast hs)
    exact h.bare

namespace World.Framed

variable {w : World}

theorem of_eq {w' : World} (h : w.Framed kept root t run) (hscopes : w'.scopes = w.scopes)
    (hclosures : w'.closures = w.closures) :
    w'.Framed kept root t run ∧ w.scopes.Later kept w'.scopes := by
  refine ⟨⟨?_, fun id closure hclosure => ?_⟩, ?_⟩
  · rw [hscopes]
    exact h.scopes
  · rw [closure?, hclosures] at hclosure
    rw [hscopes]
    exact h.closures id closure hclosure
  · rw [hscopes]
    exact .refl _

theorem grow {w' : World} (h : w.Framed kept root t run) (hg : w.scopes.Grows kept root w'.scopes)
    (hclosures : w'.closures = w.closures) : w'.Framed kept root t run where
  scopes := hg.framed
  closures id closure hclosure := by
    rw [closure?, hclosures] at hclosure
    obtain ⟨hmade, hle, hlt, harrow⟩ := h.closures id closure hclosure
    exact ⟨hmade, hle, Nat.lt_of_lt_of_le hlt hg.later.size_le, harrow⟩

theorem newClosure (h : w.Framed kept root t run) {closure : Closure} (hmade : closure.MadeOf t)
    (hle : root ≤ closure.scope) (hlt : closure.scope < w.scopes.size)
    (harrow : closure.kind = .arrow → closure.MadeIn run) :
    (w.newClosure closure).2.Framed kept root t run where
  scopes := h.scopes
  closures id found hfound := by
    simp only [World.closure?, World.newClosure, Array.getElem?_push] at hfound
    split at hfound
    · cases hfound
      exact ⟨hmade, hle, hlt, harrow⟩
    · exact h.closures id found hfound

theorem named (h : w.Framed kept root t run) (name : String) (id : ClosureId) :
    (Context.named w name id).2.Framed kept root t run := by
  rw [Context.named]
  split
  next closure hclosure =>
    split
    · obtain ⟨hmade, hle, hlt, harrow⟩ := h.closures id closure hclosure
      exact h.newClosure (hmade.shown (some name)) hle hlt harrow
    · exact h
  · exact h

end World.Framed

/-! ## Steps -/

namespace Eval

variable {a : Activation} {α : Type} {S : ScopeId → Prop} {ok : α → Prop}

/-- A step keeps to the frames, from every world where its activation has the scopes at hand. -/
def KeepsFrames (kept : String → Prop) (root : ScopeId) (t : Tree) (maxDepth : Nat)
    (run : List (Task × World)) (a : Activation) (S : ScopeId → Prop) (ok : α → Prop) (m : Eval α) :
    Prop :=
  ∀ w, w.Framed kept root t run → a.Framed root t maxDepth run w →
    (∀ s, S s → w.scopes.Reaches root a.links.rootScope s) →
    (m w).Runs (framedCourse kept root t maxDepth run) (fun value _ => ok value) w

/-- A step in one go, to a world with the same scopes and closures. -/
theorem runs_done {w w' : World} {outcome : Except Abrupt α} (hw : w.Framed kept root t run)
    (hscopes : w'.scopes = w.scopes) (hclosures : w'.closures = w.closures) :
    (Computation.done outcome w').Runs (framedCourse kept root t maxDepth run) (fun _ _ => True) w := by
  obtain ⟨hinv, hlater⟩ := hw.of_eq hscopes hclosures
  cases outcome with
  | ok value => exact ⟨hinv, hlater, trivial⟩
  | error e => exact ⟨hinv, hlater⟩

/-- A step in one go that changes the scopes within their frames. -/
theorem keepsFrames_scopes {f : ScopeGraph → ScopeGraph}
    (hf : ∀ g, ScopeGraph.Framed kept root g → g.Grows kept root (f g)) :
    KeepsFrames kept root t maxDepth run a S (fun _ => True) (scopes f) := fun w hw _ _ =>
  have hg := hf w.scopes hw.scopes
  have hframed : (w.modifyScopes f).Framed kept root t run := hw.grow hg rfl
  ⟨hframed, hg.later, trivial⟩

theorem keepsFrames_ask {task : Task} (htask : ∀ w, a.Framed root t maxDepth run w →
      (∀ s, S s → w.scopes.Reaches root a.links.rootScope s) → task.Framed root t maxDepth run w) :
    KeepsFrames kept root t maxDepth run a S (fun _ => True) (ask task) := fun w hw ha hs =>
  ⟨hw, .refl w.scopes, htask w ha hs, fun
    | .ok _, w', hw', _ => ⟨hw', .refl w'.scopes, trivial⟩
    | .error _, w', hw', _ => ⟨hw', .refl w'.scopes⟩⟩

theorem keepsFrames_reset (hnames : ∀ name, t.TargetName name → ¬ kept name) (s : ScopeId)
    {names : List String} (h : ∀ name ∈ names, t.TargetName name) :
    KeepsFrames kept root t maxDepth run a S (fun _ => True) (Context.resetNames s names) := by
  refine keepsFrames_scopes fun g hg => ?_
  induction names generalizing g with
  | nil => exact hg.refl
  | cons name rest ih =>
    have hdeclare := hg.declare s .undefined (hnames name (h name List.mem_cons_self))
    exact hdeclare.trans (ih (fun other hother => h other (List.mem_cons_of_mem _ hother)) _
      hdeclare.framed)

theorem keepsFrames_named (name : String) (id : ClosureId) :
    KeepsFrames kept root t maxDepth run a S (fun _ => True) (makes fun w => Context.named w name id) := by
  intro w hw _ _
  have hlater : w.scopes.Later kept (Context.named w name id).2.scopes := by
    rw [Context.named_scopes]
    exact .refl w.scopes
  exact ⟨hw.named name id, hlater, trivial⟩

theorem keepsFrames_write (base : Value) (key : String) (value : Value) (bound : Nat) :
    KeepsFrames kept root t maxDepth run a S (fun _ => True)
      (risks fun w => w.setProperty? base key value bound) := by
  intro w hw _ _
  rw [risks]
  split
  next a w' hwrite =>
    obtain ⟨hscopes, hclosures⟩ := w.setProperty?_frame hwrite
    exact runs_done hw hscopes hclosures
  next cause w' hwrite =>
    obtain ⟨hscopes, hclosures⟩ := w.setProperty?_frame hwrite
    exact runs_done hw hscopes hclosures
  · trivial

theorem keepsFrames_delete (base : Value) (key : String) :
    KeepsFrames kept root t maxDepth run a S (fun _ => True)
      (attempts fun w => w.deleteProperty base key) := by
  intro w hw _ _
  have hframe := w.deleteProperty_frame base key
  rw [attempts]
  split
  next a w' h =>
    rw [h] at hframe
    exact runs_done hw hframe.1 hframe.2
  next cause w' h =>
    rw [h] at hframe
    exact runs_done hw hframe.1 hframe.2

/-- **What a site allows keeps to the frames.** -/
theorem keepsFrames_of_does {x : Site} {m m' : Eval α} (hx : x.Aimed)
    (hnames : ∀ name, t.TargetName name → ¬ kept name)
    (harrows : ∀ n s, x.arrows n s → ∃ a w, (.eval a n s, w) ∈ run) (htree : x.context.tree = t)
    (h : x.Does S ok m m') :
    KeepsFrames kept root t maxDepth run x.context.toActivation S ok m := by
  subst htree
  induction h with
  | pure ha => exact fun w hw _ _ => ⟨hw, .refl w.scopes, ha⟩
  | abrupt e => exact fun w hw _ _ => ⟨hw, .refl w.scopes⟩
  | reads f => exact fun w hw _ _ => ⟨hw, .refl w.scopes, trivial⟩
  | checks f =>
    intro w hw _ _
    rw [checks]
    split
    · exact ⟨hw, .refl w.scopes, trivial⟩
    · exact ⟨hw, .refl w.scopes⟩
  | newArray items => exact fun w hw _ _ => runs_done hw rfl rfl
  | newObject fields => exact fun w hw _ _ => runs_done hw rfl rfl
  | newClosure hs hfunction hclosure harrow =>
    intro w hw _ hS
    have hreach := hS _ hs
    have hmade := Closure.madeOf_ofNode hfunction hclosure
    obtain ⟨rfl, rfl, -, hkind, -⟩ := Closure.ofNode_ok hclosure
    exact ⟨hw.newClosure hmade hreach.root_le hreach.lt fun harrow' =>
      harrows _ _ (harrow (hkind.mp harrow')), .refl w.scopes, trivial⟩
  | named name id => exact keepsFrames_named name id
  | declare hlands hname value =>
    exact keepsFrames_scopes fun g hg => hg.declare _ value (hnames _ (hlands.targetName hx hname))
  | assign hassigns value =>
    exact keepsFrames_scopes fun g hg => hg.set _ value (hnames _ (hx.assigns hassigns))
  | reset hlands => exact keepsFrames_reset hnames _ fun _ hname => hlands.targetName hx hname
  | write base key value => exact keepsFrames_write base key value _
  | delete base key => exact keepsFrames_delete base key
  | eval hn hs => exact keepsFrames_ask fun w ha hS => ⟨ha, hS _ hs⟩
  | @bindTo S p s binding _ value hbinds hs haims =>
    intro w hw ha hS
    have htask (w : World) (ha : x.context.toActivation.Framed root x.context.tree maxDepth run w)
        (hS : ∀ s, S s → w.scopes.Reaches root x.context.links.rootScope s) :
        (Task.bind x.context.toActivation p value s binding).Framed root x.context.tree maxDepth run w :=
      ⟨ha, hS s hs, hx.binds hbinds⟩
    have hask := keepsFrames_ask htask w hw ha hS
    exact hask.andThen (.refl w.scopes) fun _ w' hw' _ _ => ⟨hw', .refl w'.scopes, trivial⟩
  | call callee receiver args => exact keepsFrames_ask fun _ _ _ => trivial
  | loop testFirst hloops hs => exact keepsFrames_ask fun w ha hS => ⟨ha, hS _ hs⟩
  | bind hm hf ihm ihf =>
    exact fun w hw ha hS => (ihm w hw ha hS).andThen (.refl w.scopes) fun b w' hw' hlater hb =>
      ihf b hb w' hw' (ha.later hw.scopes hlater) fun s hs => (hS s hs).later hw.scopes hlater
  | caught hm hf hpass ihm ihf =>
    exact fun w hw ha hS => (ihm w hw ha hS).caught.andThen (.refl w.scopes) fun outcome w' hw' hlater _ =>
      ihf outcome w' hw' (ha.later hw.scopes hlater) fun s hs => (hS s hs).later hw.scopes hlater
  | raisedAt n hm ih => exact fun w hw ha hS => (ih w hw ha hS).raisedAt n
  | @opened _ _ n s _ f f' hn hs hf ih =>
    intro w hw ha hS
    obtain ⟨own, hown, heq⟩ | ⟨hnone, heq⟩ := Site.openBlock_cases x.context n s f w
    · rw [heq]
      exact ih own (Site.isOwn_of_some hown) w hw ha fun u hu => hu.elim (hS u) fun heq => heq ▸ ha.scopes n own hown
    · rw [heq]
      have hreach := hS s hs
      have hchild := hw.scopes.addChild hreach.root_le hreach.lt
      have hnew := hw.scopes.reaches_child hreach
      have hrest := ih w.scopes.size (Site.isOwn_of_none hnone _) { w with scopes := (w.scopes.addChild s).2 }
        (hw.grow hchild rfl) (ha.later hw.scopes hchild.later) fun u hu =>
          hu.elim (fun hu => (hS u hu).later hw.scopes hchild.later) fun heq => heq ▸ hnew
      exact hrest.since hchild.later

end Eval

/-! ## Calls -/

namespace Evaluator

variable {ev : Evaluator} {closure : Closure} {w : World} {x : ScopeId}

/-- The own name of a function is not a kept one. -/
theorem withSelf_grows (hnames : ∀ name, t.TargetName name → ¬ kept name) (hmade : closure.MadeOf t)
    (hw : w.scopes.Framed kept root) (id : ClosureId) (x : ScopeId) :
    w.scopes.Grows kept root (withSelf id closure x w).scopes := by
  rw [withSelf]
  split
  next name hname =>
    simp only [World.modifyScopes]
    split
    · exact hw.refl
    · exact hw.declare x (.closure id) (hnames name (hmade.selfName hname))
  · exact hw.refl

/-- The cells and the mark that an ordinary call gets, in its own scope only. -/
theorem withContext_own (hx : x < w.scopes.size) (receiver : Value) (args : List Value) :
    let g := (withContext x receiver args w).scopes
    g.size = w.scopes.size ∧ (∀ s ≠ x, g.get s = w.scopes.get s) ∧
      g.parent? x = w.scopes.parent? x ∧ (g.get x).dynamic = true ∧
      g.getOwn? x "this" = some receiver ∧
      g.getOwn? x "arguments" = some (.array w.arrays.size) := by
  have hget (s : ScopeId) : (withContext x receiver args w).scopes.get s =
      if x = s ∧ s < w.scopes.size then
        { w.scopes.get s with
          cells := ((w.scopes.get s).cells.insert "this" receiver).insert "arguments" (.array w.arrays.size)
          dynamic := true }
      else w.scopes.get s := by
    simp only [withContext, World.newArray, World.modifyScopes, ScopeGraph.markDynamic, ScopeGraph.declare,
      ScopeGraph.get_modify, ScopeGraph.size_modify]
    split <;> rfl
  have hown := hget x
  rw [if_pos ⟨rfl, hx⟩] at hown
  refine ⟨?_, fun s hs => ?_, ?_, ?_, ?_, ?_⟩
  · simp [withContext, World.newArray, World.modifyScopes, ScopeGraph.markDynamic, ScopeGraph.declare]
  · rw [hget, if_neg fun h => hs h.1.symm]
  · rw [ScopeGraph.parent?, hown]
    rfl
  · rw [hown]
  · rw [ScopeGraph.getOwn?, hown]
    simp [Dict.get?_insert]
  · rw [ScopeGraph.getOwn?, hown]
    simp [Dict.get?_insert]

/-- How a call starts from a world. -/
structure Starts (kept : String → Prop) (root : ScopeId) (closure : Closure) (receiver : Value) (w : World)
    (entry : Entry) : Prop where
  grows : w.scopes.Grows kept root entry.world.scopes
  frame : entry.world.scopes.Frame kept closure receiver w.arrays.size w.scopes.size
  scope_eq : entry.scope = w.scopes.size
  rootScope_eq : entry.links.rootScope = w.scopes.size
  scopes : ∀ n own, entry.links.scope? n = some own →
    entry.world.scopes.Reaches root w.scopes.size own

/-- A call makes its frame, and records no scopes but those with a chain to it. -/
theorem entered_starts (hresolver : ev.resolver.rules = Hoist.defaultRules)
    (hnames : ∀ name, t.TargetName name → ¬ kept name) (hw : w.Framed kept root t run) {id : ClosureId}
    (hclosure : w.closure? id = some closure) (receiver : Value) (args : List Value) :
    Starts kept root closure receiver w (ev.entered id closure receiver args w) := by
  obtain ⟨hmade, hle, hlt, -⟩ := hw.closures id closure hclosure
  obtain rfl := hmade.tree_eq
  have hchild := hw.scopes.addChild hle hlt
  obtain ⟨hparent, hplain, -⟩ := @ScopeGraph.get_addChild_size w.scopes closure.scope hlt
  have hx : w.scopes.size < (w.scopes.addChild closure.scope).2.size := by
    rw [ScopeGraph.size_addChild]
    exact Nat.lt_succ_self _
  have hled : (ev.hoisted closure w).Led kept root w.scopes.size (w.scopes.addChild closure.scope).2 :=
    Resolver.resolveBody_led hresolver hnames hchild.framed (Nat.le_of_lt hw.scopes.root_lt) hx closure.body
  rw [entered]
  generalize ev.hoisted closure w = state at hled
  -- up to here the scope of the call is an unmarked one like any other
  have hself := withSelf_grows (w := { w with scopes := state.scopes }) hnames hmade hled.grows.framed id
    w.scopes.size
  have harrays := withSelf_arrays id closure w.scopes.size { w with scopes := state.scopes }
  generalize withSelf id closure w.scopes.size { w with scopes := state.scopes } = w₁ at hself harrays ⊢
  have hsince : (w.scopes.addChild closure.scope).2.Grows kept root w₁.scopes := hled.grows.trans hself
  have hgrows : w.scopes.Grows kept root w₁.scopes := hchild.trans hsince
  have hlt₁ : w.scopes.size < w₁.scopes.size := Nat.lt_of_lt_of_le hx hsince.later.size_le
  have hparent₁ : w₁.scopes.parent? w.scopes.size = some closure.scope :=
    (hsince.later.parent_eq _ hx).trans hparent
  have hreaches (n : NodeId) (own : ScopeId) (hown : state.links.scope? n = some own) :
      w₁.scopes.Reaches root w.scopes.size own :=
    (hled.scopes n own hown).later hled.grows.framed hself.later
  cases harrow : closure.isArrow with
  | true =>
    have hkind : closure.kind = .arrow := by simpa [Closure.isArrow] using harrow
    have hplain₁ := (hsince.later.dynamic_eq _ hx).trans hplain
    exact ⟨hgrows, ⟨hlt₁, hparent₁, fun _ => hplain₁, fun h => absurd hkind h, fun h => absurd hkind h,
      fun h => absurd hkind h⟩, rfl, hled.rootScope_eq, hreaches⟩
  | false =>
    have hkind : closure.kind ≠ .arrow := by simpa [Closure.isArrow] using harrow
    obtain ⟨hsize, hother, hparent₂, hmarked, hthis, harguments⟩ :=
      withContext_own (w := w₁) hlt₁ receiver args
    have hnew : w₁.arrays.size = w.arrays.size := congrArg Array.size harrays
    rw [hnew] at harguments
    refine ⟨hgrows.own (Nat.le_refl _) hsize hother hparent₂ hmarked hw.scopes.root_lt,
      ⟨hsize ▸ hlt₁, hparent₂.trans hparent₁, fun h => absurd h hkind, fun _ => hmarked, fun _ _ => hthis,
        fun _ _ => harguments⟩, rfl, hled.rootScope_eq, fun n own hown => ?_⟩
    obtain ⟨hroot, hlt, hleads⟩ := hreaches n own hown
    exact ⟨hroot, hsize ▸ hlt, hleads.own hother⟩

/-! ## Tasks -/

section Tasks

variable (hrules : ev.rules = RuleTable.default) (hresolver : ev.resolver.rules = Hoist.defaultRules)
  (hscopes : ev.host.LeavesScopes) (hclosures : ev.host.MakesNoClosures)
  (hnames : ∀ name, t.TargetName name → ¬ kept name)

include hresolver hnames in
/-- A call of a closure of the run: its frame, then what its site allows in it. -/
theorem runs_callClosure {depth : Nat} {id : ClosureId} {receiver : Value} {args : List Value}
    (hdepth : depth < ev.limits.maxCallDepth)
    (hmem : (.call depth (.closure id) receiver args, w) ∈ run) (hw : w.Framed kept root t run)
    (hclosure : w.closure? id = some closure) :
    ∃ start, w.scopes.Later kept start.scopes ∧
      start.scopes.Frame kept closure receiver w.arrays.size w.scopes.size ∧
      (ev.callClosure depth id closure receiver args w).Runs
        (framedCourse kept root t ev.limits.maxCallDepth run) (fun _ _ => True) start := by
  obtain ⟨hmade, -⟩ := hw.closures id closure hclosure
  obtain ⟨hgrows, hframe, hscope, hroot, hscopes⟩ :=
    entered_starts hresolver hnames hw hclosure receiver args
  rw [callClosure_of_lt ev hdepth]
  refine ⟨(ev.entered id closure receiver args w).world, hgrows.later, hframe, ?_⟩
  have hown : (ev.entered id closure receiver args w).world.scopes.Reaches root w.scopes.size
      w.scopes.size := .self (Nat.le_of_lt hw.scopes.root_lt) hframe.lt
  have hactive : Activation.Framed root t ev.limits.maxCallDepth run
      (ev.entered id closure receiver args w).world
      ⟨closure.tree, (ev.entered id closure receiver args w).links, depth + 1⟩ := by
    refine ⟨hmade.tree_eq, ?_, fun n own hown => ?_, Or.inr ⟨_, w, closure, receiver, hmem,
      ⟨hdepth, hclosure, rfl⟩, hroot⟩⟩
    · rw [hroot]
      exact hown
    · rw [hroot]
      exact hscopes n own hown
  have hreach (s : ScopeId) (hs : s = w.scopes.size) :
      (ev.entered id closure receiver args w).world.scopes.Reaches root
        (ev.entered id closure receiver args w).links.rootScope s := by
    rw [hs, hroot]
    exact hown
  let c := ev.context ⟨closure.tree, (ev.entered id closure receiver args w).links, depth + 1⟩
  have hdoes := does_body (S := fun s => s = w.scopes.size) c ev.limits c.links closure hscope args
  have haimed := Site.aimed_ofCall (c := c) ev.limits c.links (hmade.tree_eq ▸ hmade)
    (ev.entered id closure receiver args w).scope
  have harrows (n : NodeId) (s : ScopeId) (h : False) : ∃ a w, (.eval a n s, w) ∈ run := h.elim
  exact Eval.keepsFrames_of_does haimed hnames harrows hmade.tree_eq hdoes _
    (hw.grow hgrows (ev.entered_closures id closure receiver args w)) hactive hreach

include hresolver hscopes hclosures hnames in
/-- A call leaves its frame behind, if it makes one. -/
theorem runs_callValue {depth : Nat} {callee receiver : Value} {args : List Value}
    (hmem : (.call depth callee receiver args, w) ∈ run) (hw : w.Framed kept root t run) :
    ∃ start, w.scopes.Later kept start.scopes ∧
      Task.LeavesFrame kept ev.limits.maxCallDepth (.call depth callee receiver args) w start ∧
      (ev.callValue depth callee receiver args w).Runs
        (framedCourse kept root t ev.limits.maxCallDepth run) (fun _ _ => True) start := by
  cases callee with
  | closure id =>
    cases hclosure : w.closure? id with
    | none =>
      refine ⟨w, .refl w.scopes, fun closure given h => ?_, ?_⟩
      · cases hclosure.symm.trans h.2.1
      · rw [callValue_of_none ev hclosure]
        exact ⟨hw, .refl w.scopes⟩
    | some closure =>
      by_cases hdepth : depth < ev.limits.maxCallDepth
      · obtain ⟨start, hlater, hframe, hruns⟩ :=
          runs_callClosure hresolver hnames hdepth hmem hw hclosure
        refine ⟨start, hlater, fun closure' given h => ?_, ?_⟩
        · obtain ⟨-, hfound, rfl⟩ := h
          cases hclosure.symm.trans hfound
          exact hframe
        · rw [callValue_of_some ev hclosure]
          exact hruns
      · refine ⟨w, .refl w.scopes, fun closure given h => absurd h.1 hdepth, ?_⟩
        rw [callValue_of_some ev hclosure, callClosure_of_le ev (Nat.le_of_not_lt hdepth)]
        exact ⟨hw, .refl w.scopes⟩
  | native name =>
    have hcall : ev.callValue depth (.native name) receiver args w =
        ev.callNative name receiver args w := rfl
    refine ⟨w, .refl w.scopes, fun _ _ h => h.elim, ?_⟩
    rw [hcall, callNative]
    split
    next native hnative =>
      have hsame := hscopes name native hnative receiver args w
      have hkeep := hclosures name native hnative receiver args w
      split
      next value w' h =>
        rw [h] at hsame hkeep
        exact Eval.runs_done hw hsame hkeep
      next error w' h =>
        rw [h] at hsame hkeep
        exact Eval.runs_done hw hsame hkeep
    · exact ⟨hw, .refl w.scopes⟩
  | _ => exact ⟨w, .refl w.scopes, fun _ _ h => h.elim, hw, .refl w.scopes⟩

include hrules hresolver hscopes hclosures hnames in
/-- **Frames are the course of every run** under the default rules, with functions of the host that leave
scopes and closures alone. -/
theorem framed_keptBy (run : List (Task × World)) :
    (framedCourse kept root t ev.limits.maxCallDepth run).KeptBy ev run := by
  intro task w hmem hw htask
  have hparts (n : NodeId) (s : ScopeId) (h : False) : ∃ a w, (.eval a n s, w) ∈ run := h.elim
  cases task with
  | eval a n s =>
    obtain ⟨ha, hs⟩ := htask
    have hdoes := does_evalNode (S := fun u => u = s) hrules ev.limits a.links a n rfl
    have harrows (m : NodeId) (u : ScopeId) (h : m = n ∧ u = s) : ∃ a w, (.eval a m u, w) ∈ run :=
      ⟨a, w, by rw [h.1, h.2]; exact hmem⟩
    have haimed := Site.aimed_ofNode (ev.context a) ev.limits a.links n s
    have hruns := Eval.keepsFrames_of_does haimed hnames harrows ha.tree_eq hdoes w hw ha fun u hu => hu ▸ hs
    refine ⟨w, .refl w.scopes, fun _ _ h => h.elim, ?_⟩
    exact hruns.andThen (.refl w.scopes) fun _ w' hw' _ _ => ⟨hw', .refl w'.scopes, trivial⟩
  | bind a pattern value s binding =>
    obtain ⟨ha, hs, htarget⟩ := htask
    obtain rfl := ha.tree_eq
    have hdoes := Site.does_bindPattern (S := fun u => u = s) (ev.context a) ev.limits a.links pattern rfl value
      binding
    have haimed := Site.aimed_ofPattern (ev.context a) ev.limits a.links s binding htarget
    have hruns := Eval.keepsFrames_of_does haimed hnames hparts rfl hdoes w hw ha fun u hu => hu ▸ hs
    refine ⟨w, .refl w.scopes, fun _ _ h => h.elim, ?_⟩
    exact hruns.andThen (.refl w.scopes) fun _ w' hw' _ _ => ⟨hw', .refl w'.scopes, trivial⟩
  | call depth callee receiver args =>
    obtain ⟨start, hlater, hleaves, hruns⟩ :=
      runs_callValue hresolver hscopes hclosures hnames hmem hw
    exact ⟨start, hlater, hleaves, hruns.andThen (.refl start.scopes) fun _ w' hw' _ _ =>
      ⟨hw', .refl w'.scopes, trivial⟩⟩
  | loop a rounds s testFirst =>
    obtain ⟨ha, hs⟩ := htask
    have hdoes := does_round (S := fun u => u = s) ev ev.limits a rounds rfl testFirst
    have haimed := Site.aimed_ofLoop (ev.context a) ev.limits a.links rounds
    have hruns := Eval.keepsFrames_of_does haimed hnames hparts ha.tree_eq hdoes w hw ha fun u hu => hu ▸ hs
    refine ⟨w, .refl w.scopes, fun _ _ h => h.elim, hruns.mono (.refl w.scopes) ?_⟩
    intro ending w' hlater hends
    cases ending with
    | value value => trivial
    | handOver task =>
      obtain rfl : task = .loop a rounds s true := hends
      exact ⟨ha.later hw.scopes hlater, hs.later hw.scopes hlater⟩

include hrules hresolver hscopes hclosures hnames in
/-- The course of the run of a program against a fresh root scope. -/
theorem orders_program {root : ScopeId} {w₁ : World} {r : Resolved} (hw : w.Fresh kept root)
    (hresolve : ev.resolve t root w = (.ok r, w₁)) (steps : Nat) :
    let run := ev.performed steps (.eval ⟨r.tree, r.links, 0⟩ r.links.root r.links.rootScope) w₁
    (framedCourse kept root t ev.limits.maxCallDepth run).Orders w₁ run := by
  rw [resolve] at hresolve
  split at hresolve
  next state hstate =>
    cases hresolve
    have hled := Resolver.resolve_led hresolver hnames hw.framed (Nat.le_refl root) hw.framed.root_lt hstate
    have hroot := hled.rootScope_eq
    refine Course.orders_performed (framed_keptBy hrules hresolver hscopes hclosures hnames _)
      ⟨hled.grows.framed, fun id closure hclosure => ?_⟩ ⟨⟨rfl, ?_, fun n own hown => ?_, Or.inl hroot⟩, ?_⟩
    · simp [World.closure?, hw.closures] at hclosure
    · exact hroot ▸ hled.rootScope
    · exact hroot ▸ hled.scopes n own hown
    · exact hroot ▸ hled.rootScope
  · cases hresolve

end Tasks

end Evaluator

end ScriptCore

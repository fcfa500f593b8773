import ScriptCore.Proofs.Eval.Course
import ScriptCore.Proofs.Eval.Effect
import ScriptCore.Proofs.Eval.OrderlyCall
import ScriptCore.Proofs.Hoist.Reserved

/-!
# Reservations last

No effect of an evaluation loses a scope, or removes or moves a name of one: it adds names at the end, or
none (`World.Prolongs`). So what a resolution has reserved stays reserved: whenever a task of an activation
is carried out, in the program or in a call, its scopes have all that its tree declares
(`Evaluator.reserved_performed`).
-/
namespace ScriptCore

/-! ## Names stay in their order -/

namespace ScopeGraph

/-- Every scope is there with the names that it had, in their order, and possibly more behind them. -/
structure Prolongs (g g' : ScopeGraph) : Prop where
  size_le : g.size ≤ g'.size
  names : ∀ s, g.ownNames s <+: g'.ownNames s

variable {g g' : ScopeGraph}

theorem Prolongs.refl (g : ScopeGraph) : g.Prolongs g := ⟨Nat.le_refl _, fun _ => List.prefix_refl _⟩

theorem Prolongs.keptIn (h : g.Prolongs g') : g.KeptIn g' := ⟨h.size_le, fun s => (h.names s).subset⟩

theorem prefix_of_cells (h : ∀ s < g.size, (g'.get s).cells = (g.get s).cells) (s : ScopeId) :
    g.ownNames s <+: g'.ownNames s := by
  by_cases hs : s < g.size
  · have hsame : g'.ownNames s = g.ownNames s := by rw [ownNames, ownNames, h s hs]
    exact hsame ▸ List.prefix_refl _
  · have hnone : g.ownNames s = [] := by
      apply List.eq_nil_iff_forall_not_mem.mpr
      exact fun name hname => hs (lt_size_of_own hname)
    rw [hnone]
    exact List.nil_prefix

theorem Change.prolongs {n : Nat} (h : Change n g g') : g.Prolongs g' := by
  refine ⟨h.size_le, ?_⟩
  cases h with
  | opened parent =>
    apply prefix_of_cells
    intro s hs
    rw [addChild, get_modify, get_add, if_neg (Nat.ne_of_lt hs)]
    split <;> rfl
  | owned _ owner =>
    apply prefix_of_cells
    intro s hs
    rw [setOwner, get_modify]
    split <;> rfl
  | marked _ =>
    apply prefix_of_cells
    intro s hs
    rw [markDynamic, get_modify]
    split <;> rfl
  | declared _ name value => exact ownNames_prefix_declare g _ name value
  | assigned _ name value hfound => exact ownNames_prefix_declare g _ name value

end ScopeGraph

namespace World

/-- No scope is lost, and the names of every scope only grow, at their end. -/
def Prolongs (w w' : World) : Prop := w.scopes.Prolongs w'.scopes

theorem Prolongs.refl (w : World) : w.Prolongs w := ScopeGraph.Prolongs.refl w.scopes

theorem Prolongs.trans {w₁ w₂ w₃ : World} (h : w₁.Prolongs w₂) (h' : w₂.Prolongs w₃) : w₁.Prolongs w₃ :=
  ⟨Nat.le_trans h.size_le h'.size_le, fun s => (h.names s).trans (h'.names s)⟩

instance : IsTrans World Prolongs := ⟨fun _ _ _ => Prolongs.trans⟩

theorem Prolongs.of_scopes_eq {w w' : World} (h : w'.scopes = w.scopes) : w.Prolongs w' := by
  unfold Prolongs
  rw [h]
  exact .refl _

theorem Effect.prolongs {ev : Evaluator} (hhost : ev.host.LeavesScopes) {w w' : World}
    (h : Effect ev w w') : w.Prolongs w' := by
  cases h with
  | newArray items => exact .of_scopes_eq rfl
  | newObject fields => exact .of_scopes_eq rfl
  | newClosure closure => exact .of_scopes_eq rfl
  | scopes h => exact h.prolongs
  | write h => exact .of_scopes_eq (w.setProperty?_frame h).1
  | delete base key => exact .of_scopes_eq (w.deleteProperty_frame base key).1
  | native h receiver args => exact .of_scopes_eq (hhost _ _ h receiver args w)

theorem prolongs_of_effects {ev : Evaluator} (hhost : ev.host.LeavesScopes) {w w' : World}
    (h : Relation.ReflTransGen (Effect ev) w w') : w.Prolongs w' := by
  induction h with
  | refl => exact .refl w
  | tail _ hstep ih => exact ih.trans (hstep.prolongs hhost)

end World

/-! ## What an activation needs -/

/-- The scopes that an activation has links to have all that its tree declares. -/
structure Activation.Reserved (a : Activation) (g : ScopeGraph) : Prop where
  names : a.links.Reserves a.tree g
  root : a.links.rootScope < g.size

theorem Activation.Reserved.later {a : Activation} {g g' : ScopeGraph} (h : a.Reserved g)
    (hkept : g.KeptIn g') : a.Reserved g' :=
  ⟨h.names.later hkept, Nat.lt_of_lt_of_le h.root hkept.size_le⟩

/-- The course of runs in which every activation has what is reserved for it. -/
def reservedCourse : Course where
  inv _ := True
  later := World.Prolongs
  asks task w := ∀ a, task.activation? = some a → a.Reserved w.scopes
  leaves _ _ _ := True
  refl := .refl
  trans := .trans
  asks_later _ hlater h a ha := (h a ha).later hlater.keptIn
  leaves_later _ _ := trivial

/-- The tasks of an activation and calls may be asked for where all is there that its tree declares. -/
theorem Activation.Reserved.asks {a : Activation} {task : Task} {w : World} (h : a.Reserved w.scopes)
    (htask : task.activation? = some a ∨ task.IsCall) : reservedCourse.asks task w := by
  intro b hb
  obtain hsame | hcall := htask
  · rw [hsame] at hb
    cases hb
    exact h
  · rw [Task.activation?_of_isCall hcall] at hb
    cases hb

namespace Evaluator

variable {ev : Evaluator} {asked : Task → Prop} {w₀ w : World}

/-- Effects lead to later worlds, so what may be asked for in one may be asked for in all that follow. -/
theorem runs_of_goes {α : Type} {c : Computation α} {ok : α → Prop} (hhost : ev.host.LeavesScopes)
    (hasked : ∀ task, asked task → reservedCourse.asks task w₀) (hlater : w₀.Prolongs w)
    (h : c.Goes (ev.effects asked) ok w) : c.Runs reservedCourse (fun a _ => ok a) w := by
  induction c generalizing w with
  | done outcome w' =>
    cases outcome with
    | ok a => exact ⟨trivial, World.prolongs_of_effects hhost h.1, h.2⟩
    | error e => exact ⟨trivial, World.prolongs_of_effects hhost h⟩
  | ask task w' resume ih =>
    obtain ⟨hmoves, hasks, hresume⟩ := h
    have hw' := World.prolongs_of_effects hhost hmoves
    have hnext := reservedCourse.asks_later trivial (hlater.trans hw') (hasked task hasks)
    exact ⟨trivial, hw', hnext, fun outcome w'' _ hw'' =>
      ih outcome w'' (hlater.trans (hw'.trans hw'')) (hresume outcome w'')⟩
  | brokenOff => trivial

/-- A call finds what its body declares in the scope that it has made. -/
theorem runs_reserved_call (hresolver : ev.resolver.rules = Hoist.defaultRules)
    (hhost : ev.host.LeavesScopes) {closure : Closure} (hclosure : closure.Sound) (depth : Nat)
    (id : ClosureId) (receiver : Value) (args : List Value) :
    (ev.callClosure depth id closure receiver args w).Runs reservedCourse (fun _ _ => True) w := by
  rw [callClosure]
  split
  · exact ⟨trivial, .refl w⟩
  · let a : Activation := ⟨closure.tree, (ev.hoisted closure w).links, depth + 1⟩
    let entered : World := { w with scopes := (ev.hoisted closure w).scopes }
    have henters : (ev.enterCall closure).Affects ev Task.IsCall := affects_enterCall hresolver closure
    have hentered : w.Prolongs entered := World.prolongs_of_effects hhost (henters w).1
    have hscope : w.scopes.size < (w.scopes.addChild closure.scope).2.size := by
      rw [ScopeGraph.size_addChild]
      exact Nat.lt_succ_self _
    have hr : a.Reserved entered.scopes := by
      obtain ⟨hnames, hroot⟩ :=
        Resolver.resolveBody_reserves hresolver hclosure.tree hclosure.body_lt hscope
      exact ⟨hnames, hroot⟩
    have hframe : Eval.Affects ev (fun task => task.activation? = some a ∨ task.IsCall) _ :=
      affects_frame (c := ev.context a) rfl (fun _ h => h) id closure w.scopes.size receiver args
    have hruns := runs_of_goes hhost (fun _ htask => hr.asks htask) (.refl entered) (hframe entered)
    exact hruns.since hentered

/-- The other calls ask for nothing. -/
theorem runs_reserved_value (hresolver : ev.resolver.rules = Hoist.defaultRules)
    (hhost : ev.host.LeavesScopes) (hw : w.Sound) (depth : Nat) (callee receiver : Value)
    (args : List Value) :
    (ev.callValue depth callee receiver args w).Runs reservedCourse (fun _ _ => True) w := by
  cases callee with
  | closure id =>
    cases hclosure : w.closure? id with
    | none =>
      rw [callValue_of_none ev hclosure]
      exact ⟨trivial, .refl w⟩
    | some closure =>
      rw [callValue_of_some ev hclosure]
      exact runs_reserved_call hresolver hhost (hw id closure hclosure) depth id receiver args
  | native name =>
    have hcall : (ev.callNative name receiver args).Affects ev fun _ => False :=
      affects_callNative name receiver args
    exact runs_of_goes hhost (fun _ h => h.elim) (.refl w) (hcall w)
  | _ => exact ⟨trivial, .refl w⟩

variable (hrules : ev.rules = RuleTable.default) (hresolver : ev.resolver.rules = Hoist.defaultRules)
  (hhost : ev.host.LeavesScopes)

include hrules hresolver hhost in
/-- The tasks of a run whose closures are those of grammatical functions keep to the course. -/
theorem reserved_keptBy {run : List (Task × World)} (hrun : ∀ entry ∈ run, entry.2.Sound) :
    reservedCourse.KeptBy ev run := by
  intro task w hmem _ hasks
  refine ⟨w, .refl w, trivial, ?_⟩
  cases htask : task.activation? with
  | none =>
    cases task with
    | call depth callee receiver args =>
      have hcall := runs_reserved_value hresolver hhost (hrun _ hmem) depth callee receiver args
      exact hcall.andThen (.refl w) fun _ w' _ _ _ => ⟨trivial, .refl w', trivial⟩
    | _ => cases htask
  | some a =>
    have hgoes := (effects_keptBy hrules hresolver).goes task w trivial
    have hasked (next : Task) (hnext : task.MayAsk next) : reservedCourse.asks next w :=
      (hasks a htask).asks (hnext a htask)
    have hruns := runs_of_goes hhost hasked (.refl w) hgoes
    refine hruns.mono (.refl w) fun ending w' hlater hends => ?_
    cases ending with
    | value value => trivial
    | handOver next => exact reservedCourse.asks_later trivial hlater (hasked next hends)

include hrules hresolver hhost in
/-- **Whenever a task is carried out**, the scopes of its activation have all that its tree declares. -/
theorem reserved_performed {steps : Nat} {task : Task}
    (hrun : ∀ entry ∈ ev.performed steps task w, entry.2.Sound) (hstart : reservedCourse.asks task w) :
    ∀ entry ∈ ev.performed steps task w, reservedCourse.asks entry.1 entry.2 := by
  intro entry hentry
  have hkept := reserved_keptBy hrules hresolver hhost hrun
  obtain ⟨-, -, hasks⟩ := (Course.orders_performed hkept trivial hstart).each entry hentry
  exact hasks

end Evaluator

end ScriptCore

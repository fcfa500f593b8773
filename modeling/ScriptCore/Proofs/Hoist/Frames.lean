import ScriptCore.Proofs.Hoist.Visits
import ScriptCore.Proofs.Scope.Frames
import ScriptCore.Proofs.Tree.Targets

/-!
# Resolving within a frame

A resolution opens scopes beneath the one it starts from, none of them marked, so that each scope it
records has a chain to that one. It declares names of targets only; a name that no target has stays
undeclared.
-/
namespace ScriptCore

namespace Hoist

open ScopeGraph

variable {kept : String → Prop} {root x : ScopeId} {g : ScopeGraph} {t : Tree} {s : State} {n : NodeId}

/-- What a resolution has made of a graph: all scopes that it records have chains to its root scope. -/
structure State.Led (kept : String → Prop) (root x : ScopeId) (g : ScopeGraph) (s : State) : Prop where
  grows : g.Grows kept root s.scopes
  rootScope_eq : s.links.rootScope = x
  rootScope : s.scopes.Reaches root x x
  scopes : ∀ node own, s.links.scope? node = some own → s.scopes.Reaches root x own

theorem led_start (hg : g.Framed kept root) (hle : root ≤ x) (hx : x < g.size) (start : NodeId) :
    (⟨.start start x, g⟩ : State).Led kept root x g where
  grows := hg.refl
  rootScope_eq := rfl
  rootScope := .self hle hx
  scopes node own hown := by
    have hstart : (Links.start start x).scope? node = some own := hown
    rw [Links.scope?_start] at hstart
    split at hstart
    · cases hstart
      exact .self hle hx
    · cases hstart

/-- The graph grows on. -/
theorem State.Led.grow (h : s.Led kept root x g) {g' : ScopeGraph} (hg : s.scopes.Grows kept root g') :
    State.Led kept root x g ⟨s.links, g'⟩ where
  grows := h.grows.trans hg
  rootScope_eq := h.rootScope_eq
  rootScope := h.rootScope.later h.grows.framed hg.later
  scopes node own hown := (h.scopes node own hown).later h.grows.framed hg.later

theorem State.Led.setScope (h : s.Led kept root x g) (node : NodeId) {own : ScopeId}
    (hown : s.scopes.Reaches root x own) : State.Led kept root x g ⟨s.links.setScope node own, s.scopes⟩ where
  grows := h.grows
  rootScope_eq := h.rootScope_eq
  rootScope := h.rootScope
  scopes m other hother := by
    rw [Links.scope?_setScope] at hother
    split at hother
    · cases hother
      exact hown
    · exact h.scopes m other hother

theorem State.Led.scopeOrRoot (h : s.Led kept root x g) (node : NodeId) :
    s.scopes.Reaches root x (s.links.scopeOrRoot node) := by
  rw [Links.scopeOrRoot]
  cases hown : s.links.scope? node with
  | none => exact h.rootScope_eq ▸ h.rootScope
  | some own => exact h.scopes node own hown

theorem State.Led.declare (h : s.Led kept root x g) (node : NodeId) (scope : ScopeId)
    {names : List String} (hnames : ∀ name ∈ names, ¬ kept name) :
    (s.declare node scope names).Led kept root x g := by
  have hlinks : State.Led kept root x g ⟨s.links.setTarget node scope, s.scopes⟩ :=
    ⟨h.grows, h.rootScope_eq, h.rootScope, h.scopes⟩
  refine hlinks.grow ?_
  have hframed := h.grows.framed
  generalize s.scopes = g₁ at hframed
  induction names generalizing g₁ with
  | nil => exact hframed.refl
  | cons name rest ih =>
    have hrest : ∀ name ∈ rest, ¬ kept name := fun other hother =>
      hnames other (List.mem_cons_of_mem _ hother)
    rw [List.foldl_cons]
    split
    · exact ih hrest g₁ hframed
    · have hdeclare := hframed.declare scope .undefined (hnames name List.mem_cons_self)
      exact hdeclare.trans (ih hrest _ hdeclare.framed)

theorem link_led (h : s.Led kept root x g) (parent : Option NodeId) :
    (link t n parent s).2.Led kept root x g := by
  cases parent with
  | none => exact h
  | some parent =>
    have hlinks : State.Led kept root x g ⟨s.links.setParent n parent, s.scopes⟩ :=
      ⟨h.grows, h.rootScope_eq, h.rootScope, h.scopes⟩
    have houter := hlinks.scopeOrRoot parent
    simp only [link]
    split
    · have hframed := hlinks.grows.framed
      have hchild := hframed.addChild houter.root_le houter.lt
      have howned := hchild.framed.setOwner s.scopes.size (some n)
      have hnew := (hframed.reaches_child houter).later hchild.framed howned.later
      exact (hlinks.grow (hchild.trans howned)).setScope n hnew
    · exact hlinks.setScope n houter

theorem targetName_of_nameIn {node : NodeId} {key name : String}
    (hfield : (t.tag node, key) ∈ Tree.bindingFields) (h : name ∈ nameIn t node key) :
    t.TargetName name := by
  rw [nameIn, Option.mem_toList, Option.bind_eq_some_iff] at h
  obtain ⟨child, hchild, hname⟩ := h
  exact Tree.targetName_of (Tree.isTarget_of_bindingField hchild hfield) hname

theorem meaning_led (hnames : ∀ name, t.TargetName name → ¬ kept name) (h : s.Led kept root x g)
    (host : HostRules) {rule : Rule} (hrule : (t.tag n, rule) ∈ tagRules) (parent : Option NodeId) :
    (rule.meaning host t n parent s).2.Led kept root x g := by
  simp only [tagRules, List.mem_cons, Prod.mk.injEq, List.not_mem_nil, or_false] at hrule
  rcases hrule with ⟨htag, rfl⟩ | ⟨htag, rfl⟩ | ⟨-, rfl⟩ | ⟨-, rfl⟩ | ⟨htag, rfl⟩ | ⟨-, rfl⟩ | ⟨-, rfl⟩ |
    ⟨htag, rfl⟩ | ⟨htag, rfl⟩ | ⟨htag, rfl⟩
  · refine h.declare n _ fun name hname => hnames name ?_
    cases hid : t.child? n "id" with
    | none => simp [hid] at hname
    | some id =>
      rw [hid] at hname
      exact Tree.targetName_of_bindingNames (Tree.isTarget_of_bindingField hid (htag ▸ by decide)) hname
  · exact h.declare n _ fun name hname => hnames name
      (targetName_of_nameIn (htag ▸ by decide) hname)
  · exact h
  · exact h
  · exact h.declare n _ fun name hname => hnames name
      (targetName_of_nameIn (htag ▸ by decide) hname)
  · simp only [Rule.meaning, classBody]
    split
    · exact h
    next names _ =>
      refine h.declare n _ fun name hname => hnames name ?_
      split at hname
      next p _ =>
        split at hname
        next hclass =>
          have htag : t.tag p = "ClassExpression" := by simpa [Tree.is] using hclass
          exact targetName_of_nameIn (htag ▸ by decide) hname
        · cases hname
      · cases hname
  · simp only [Rule.meaning, catchBlock]
    split
    next clause =>
      split
      next hclause =>
        have htag : t.tag clause = "CatchClause" := by simpa [Tree.is] using hclause
        split
        next param hparam =>
          exact h.declare n _ fun name hname => hnames name
            (Tree.targetName_of_bindingNames
              (Tree.isTarget_of_bindingField hparam (htag ▸ by decide)) hname)
        · exact h
      · exact h
    · exact h
  all_goals
    exact h.declare n _ fun name hname => hnames name
      (targetName_of_nameIn (htag ▸ by decide) hname)

theorem step_led (hnames : ∀ name, t.TargetName name → ¬ kept name) (host : HostRules) (v : Visit)
    (h : s.Led kept root x g) : (step host t s v).Led kept root x g := by
  have hlink := link_led (t := t) (n := v.node) h v.parent
  rw [step_eq]
  split
  next rule hrule => exact meaning_led hnames hlink host (mem_tagRules hrule) v.parent
  · exact hlink

end Hoist

namespace Resolver

variable {r : Resolver} {kept : String → Prop} {root x : ScopeId} {g : ScopeGraph} {t : Tree}

/-- Under the default rules, a resolution within a frame stays in it. -/
theorem run_led (hr : r.rules = Hoist.defaultRules) (hnames : ∀ name, t.TargetName name → ¬ kept name)
    (hg : g.Framed kept root) (hle : root ≤ x) (hx : x < g.size) (start : NodeId) :
    (r.run t start x g).Led kept root x g := by
  rw [run_eq_foldl hr]
  have hstart := Hoist.led_start hg hle hx start
  generalize (⟨.start start x, g⟩ : Hoist.State) = s at hstart
  induction t.visits start generalizing s with
  | nil => exact hstart
  | cons v rest ih => exact ih _ (Hoist.step_led hnames r.host v hstart)

theorem resolveBody_led (hr : r.rules = Hoist.defaultRules)
    (hnames : ∀ name, t.TargetName name → ¬ kept name) (hg : g.Framed kept root) (hle : root ≤ x)
    (hx : x < g.size) (body : NodeId) : (r.resolveBody t body x g).Led kept root x g := by
  rw [resolveBody]
  split
  · have howned := hg.setOwner x (some body)
    have hled := run_led hr hnames howned.framed hle (Nat.lt_of_lt_of_le hx howned.later.size_le) body
    exact ⟨howned.trans hled.grows, hled.rootScope_eq, hled.rootScope, hled.scopes⟩
  · exact run_led hr hnames hg hle hx body

theorem resolve_led (hr : r.rules = Hoist.defaultRules)
    (hnames : ∀ name, t.TargetName name → ¬ kept name) (hg : g.Framed kept root) (hle : root ≤ x)
    (hx : x < g.size) {s : Hoist.State} (hresolve : r.resolve t x g = .ok s) :
    s.Led kept root x g := by
  rw [resolve] at hresolve
  split at hresolve
  · cases hresolve
  · cases hresolve
    have howned := hg.setOwner x (some t.root)
    have hled := run_led hr hnames howned.framed hle (Nat.lt_of_lt_of_le hx howned.later.size_le) t.root
    exact ⟨howned.trans hled.grows, hled.rootScope_eq, hled.rootScope, hled.scopes⟩

end Resolver

end ScriptCore

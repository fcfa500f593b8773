import ScriptCore.Hoist.Rule
import ScriptCore.Proofs.Scope.Change

/-!
# Hoisting inside a call

A resolution that starts in a scope made after a graph `g₀` makes and names only such scopes: the links
that it records hold no other, and of the graph it changes nothing that was there before
(`Resolver.resolveBody_inside`).
-/
namespace ScriptCore

/-- All scopes that links hold have ids from `n` on. -/
structure Links.Within (n : Nat) (l : Links) : Prop where
  root : n ≤ l.rootScope
  scopes : ∀ node s, l.scope? node = some s → n ≤ s
  targets : ∀ node s, l.target? node = some s → n ≤ s

namespace Links

variable {n : Nat} {l : Links}

theorem within_start (root : NodeId) {scope : ScopeId} (h : n ≤ scope) :
    (Links.start root scope).Within n where
  root := h
  scopes node s hs := by
    rw [scope?, start, Slots.get?_set] at hs
    split at hs
    · cases hs
      exact h
    · simp at hs
  targets node s hs := by simp [target?, start] at hs

theorem Within.setScope (h : l.Within n) (node : NodeId) {scope : ScopeId} (hs : n ≤ scope) :
    (l.setScope node scope).Within n where
  root := h.root
  scopes node' s hs' := by
    rw [scope?, Links.setScope, Slots.get?_set] at hs'
    split at hs'
    · cases hs'
      exact hs
    · exact h.scopes node' s hs'
  targets := h.targets

theorem Within.setTarget (h : l.Within n) (node : NodeId) {scope : ScopeId} (hs : n ≤ scope) :
    (l.setTarget node scope).Within n where
  root := h.root
  scopes := h.scopes
  targets node' s hs' := by
    rw [target?, Links.setTarget, Slots.get?_set] at hs'
    split at hs'
    · cases hs'
      exact hs
    · exact h.targets node' s hs'

theorem Within.setParent (h : l.Within n) (node parent : NodeId) :
    (l.setParent node parent).Within n := ⟨h.root, h.scopes, h.targets⟩

theorem Within.scopeOrRoot (h : l.Within n) (node : NodeId) : n ≤ l.scopeOrRoot node := by
  rw [Links.scopeOrRoot]
  cases hs : l.scope? node with
  | none => exact h.root
  | some s => exact h.scopes node s hs

theorem Within.functionScope (h : l.Within n) (t : Tree) (g : ScopeGraph) {scope : ScopeId}
    (hs : n ≤ scope) : n ≤ l.functionScope t g scope := by
  rw [Links.functionScope]
  split
  · exact h.scopeOrRoot _
  · exact hs

end Links

namespace Hoist

/-- Everything that a resolution has made, it has made after the graph `g₀`. -/
structure State.Inside (g₀ : ScopeGraph) (s : State) : Prop where
  links : s.links.Within g₀.size
  scopes : ScopeGraph.Changes g₀.size g₀ s.scopes

variable {g₀ : ScopeGraph} {s : State}

theorem State.Inside.declare (h : s.Inside g₀) (node : NodeId) {scope : ScopeId}
    (hs : g₀.size ≤ scope) (names : List String) : (s.declare node scope names).Inside g₀ := by
  refine ⟨h.links.setTarget node hs, ?_⟩
  have hscopes := h.scopes
  rw [State.declare]
  generalize s.scopes = g at hscopes
  induction names generalizing g with
  | nil => exact hscopes
  | cons name rest ih =>
    rw [List.foldl_cons]
    refine ih _ ?_
    split
    · exact hscopes
    · exact hscopes.tail (.declared hs name .undefined)

theorem link_inside (t : Tree) (node : NodeId) (parent : Option NodeId) (h : s.Inside g₀) :
    (link t node parent s).2.Inside g₀ := by
  cases parent with
  | none => exact h
  | some parent =>
    have hlinks := h.links.setParent node parent
    simp only [link]
    split
    · have hsize : g₀.size ≤ s.scopes.size := ScopeGraph.Changes.size_le h.scopes
      exact ⟨hlinks.setScope node hsize, (h.scopes.tail (.opened _)).tail (.owned hsize _)⟩
    · exact ⟨hlinks.setScope node (hlinks.scopeOrRoot parent), h.scopes⟩

/-- No rule of hoisting but one of the host reaches out of a call. -/
theorem Rule.meaning_inside (host : HostRules) {rule : Rule} (hrule : ∀ name, rule ≠ .host name)
    (t : Tree) (node : NodeId) (parent : Option NodeId) (h : s.Inside g₀) :
    (rule.meaning host t node parent s).2.Inside g₀ := by
  have hscope := h.links.scopeOrRoot
  have hfunction := h.links.functionScope t s.scopes (hscope node)
  cases rule with
  | link => exact link_inside t node parent h
  | variableDeclarator =>
    refine h.declare node ?_ _
    split
    · exact hfunction
    · exact hscope _
  | functionDeclaration => exact h.declare node hfunction _
  | skip => exact h
  | classDeclaration => exact h.declare node (hscope _) _
  | classBody =>
    simp only [Rule.meaning, Hoist.classBody]
    split
    · exact h
    · exact h.declare node (hscope node) _
  | catchBlock =>
    simp only [Rule.meaning, Hoist.catchBlock]
    split
    · split
      · split
        · exact h.declare node (hscope node) _
        · exact h
      · exact h
    · exact h
  | importSpecifier => exact h.declare node (hscope node) _
  | host name => exact absurd rfl (hrule name)

/-- The default rules hold none of the host's. -/
theorem defaultRules_ne_host {rule : Rule}
    (h : defaultRules.any = some rule ∨ ∃ tag, defaultRules.rule? tag = some rule)
    (name : String) : rule ≠ .host name := by
  rintro rfl
  cases h with
  | inl h => cases h
  | inr h =>
    obtain ⟨tag, h⟩ := h
    have hmem := Dict.mem_of_get?_ofList h
    simp [tagRules] at hmem

end Hoist

/-- Under the default rules, the resolution of a body stays inside its call. -/
theorem Resolver.resolveBody_inside {r : Resolver} (hr : r.rules = Hoist.defaultRules) (t : Tree)
    (body : NodeId) {g₀ g : ScopeGraph} {scope : ScopeId} (hs : g₀.size ≤ scope)
    (hg : ScopeGraph.Changes g₀.size g₀ g) : (r.resolveBody t body scope g).Inside g₀ := by
  have hstart : ScopeGraph.Changes g₀.size g₀
      (if (g.get scope).owner.isNone then g.setOwner scope (some body) else g) := by
    split
    · exact hg.tail (.owned hs _)
    · exact hg
  rw [resolveBody, run, Walker.walkFrom, hr]
  exact Walker.visit_keeps
    (fun rule hrule node parent s h =>
      Hoist.Rule.meaning_inside r.host (Hoist.defaultRules_ne_host hrule) t node parent h)
    _ _ _ _ ⟨Links.within_start body hs, hstart⟩

end ScriptCore

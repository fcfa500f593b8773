import ScriptCore.Proofs.Hoist.Visits

/-!
# What a resolution stamps on nodes

While a resolution goes through its visits, the links know exactly the nodes visited so far: each has
its parent and a scope, that of the parent unless it is block-like (`Links.Stamps`). In the end that
holds of all nodes that are walked to, and every declarator and function declaration among them has a
target (`Resolver.run_stamped`).
-/
namespace ScriptCore

/-- The kinds that get a declaration target wherever they are visited. -/
def Tag.isTargeted (tag : String) : Bool := tag = "VariableDeclarator" || tag = "FunctionDeclaration"

namespace Links

/-- Links after some visits of a resolution from `root` in `scope`. -/
structure Stamps (t : Tree) (root : NodeId) (scope : ScopeId) (done : List Visit) (l : Links) :
    Prop where
  root_eq : l.root = root
  rootScope_eq : l.rootScope = scope
  root_scope : l.scope? root = some scope
  visited : ∀ n, (l.scope? n).isSome → n = root ∨ ∃ v ∈ done, v.node = n
  hasScope : ∀ v ∈ done, (l.scope? v.node).isSome
  parents : ∀ n p, l.parent? n = some p → ∃ v ∈ done, v.node = n
  parent_eq : ∀ v ∈ done, l.parent? v.node = v.parent
  inherited : ∀ v ∈ done, ∀ p, v.parent = some p → Tag.isBlock (t.tag v.node) = false →
    l.scope? v.node = l.scope? p
  /-- parents were visited before -/
  above : ∀ v ∈ done, ∀ p, v.parent = some p → ∃ u ∈ done, u.node = p

variable {t : Tree} {root : NodeId} {scope : ScopeId} {done : List Visit} {l : Links}

theorem stamps_start : (Links.start root scope).Stamps t root scope [] where
  root_eq := rfl
  rootScope_eq := rfl
  root_scope := by rw [scope?_start, if_pos rfl]
  visited n hn := by
    rw [scope?_start] at hn
    split at hn
    next h => exact Or.inl h.symm
    · cases hn
  hasScope := by simp
  parents n p hp := by simp [parent?, start] at hp
  parent_eq := by simp
  inherited := by simp
  above := by simp

/-- Recording a target keeps what is stamped. -/
theorem Stamps.setTarget (h : l.Stamps t root scope done) (node : NodeId) (target : ScopeId) :
    (l.setTarget node target).Stamps t root scope done :=
  ⟨h.root_eq, h.rootScope_eq, h.root_scope, h.visited, h.hasScope, h.parents, h.parent_eq, h.inherited,
    h.above⟩

/-- The visit of the root adds nothing: it is stamped from the start. -/
theorem Stamps.visitRoot (h : l.Stamps t root scope []) : l.Stamps t root scope [.start root] where
  root_eq := h.root_eq
  rootScope_eq := h.rootScope_eq
  root_scope := h.root_scope
  visited n hn := by
    rcases h.visited n hn with rfl | ⟨v, hv, -⟩
    · exact Or.inl rfl
    · cases hv
  hasScope := by simp [h.root_scope]
  parents n p hp := by
    obtain ⟨v, hv, -⟩ := h.parents n p hp
    cases hv
  parent_eq := by
    intro v hv
    rw [List.mem_singleton] at hv
    subst hv
    cases hp : l.parent? (Visit.start root).node with
    | none => rfl
    | some p =>
      obtain ⟨v, hv, -⟩ := h.parents _ p hp
      cases hv
  inherited := by simp
  above := by simp

/-- Recording the place of a child stamps it. -/
theorem Stamps.visitChild (h : l.Stamps t root scope done) {u : Visit} (hu : u ∈ done)
    {node : NodeId} (hroot : node ≠ root) (hnew : ∀ w ∈ done, w.node ≠ node) {own : ScopeId}
    (hown : Tag.isBlock (t.tag node) = false → l.scope? u.node = some own) :
    ((l.setParent node u.node).setScope node own).Stamps t root scope (done ++ [u.child t node]) := by
  have hscope (n : NodeId) : ((l.setParent node u.node).setScope node own).scope? n =
      if node = n then some own else l.scope? n := by rw [scope?_setScope, scope?_setParent]
  have hparent (n : NodeId) : ((l.setParent node u.node).setScope node own).parent? n =
      if node = n then some u.node else l.parent? n := by rw [parent?_setScope, parent?_setParent]
  have hold {v : Visit} (hv : v ∈ done) : ¬ node = v.node := fun e => hnew v hv e.symm
  refine ⟨h.root_eq, h.rootScope_eq, ?_, ?_, ?_, ?_, ?_, ?_, ?_⟩
  · rw [hscope, if_neg hroot]
    exact h.root_scope
  · intro n hn
    rw [hscope] at hn
    split at hn
    next heq => exact Or.inr ⟨u.child t node, by simp, heq⟩
    · rcases h.visited n hn with rfl | ⟨v, hv, hnode⟩
      · exact Or.inl rfl
      · exact Or.inr ⟨v, List.mem_append_left _ hv, hnode⟩
  · intro v hv
    rcases List.mem_append.mp hv with hv | hv
    · rw [hscope, if_neg (hold hv)]
      exact h.hasScope v hv
    · rw [List.mem_singleton.mp hv, Visit.child_node, hscope, if_pos rfl]
      rfl
  · intro n p hp
    rw [hparent] at hp
    split at hp
    next heq => exact ⟨u.child t node, by simp, heq⟩
    · obtain ⟨v, hv, hnode⟩ := h.parents n p hp
      exact ⟨v, List.mem_append_left _ hv, hnode⟩
  · intro v hv
    rcases List.mem_append.mp hv with hv | hv
    · rw [hparent, if_neg (hold hv)]
      exact h.parent_eq v hv
    · rw [List.mem_singleton.mp hv, Visit.child_node, hparent, if_pos rfl, Visit.child_parent]
  · intro v hv p hp hblock
    rcases List.mem_append.mp hv with hv | hv
    · obtain ⟨w, hw, hnode⟩ := h.above v hv p hp
      rw [hscope, if_neg (hold hv), hscope, if_neg (hnode ▸ hold hw)]
      exact h.inherited v hv p hp hblock
    · rw [List.mem_singleton.mp hv] at hp hblock ⊢
      cases hp
      rw [Visit.child_node, hscope, if_pos rfl, hscope, if_neg (hold hu), hown hblock]
  · intro v hv p hp
    rcases List.mem_append.mp hv with hv | hv
    · obtain ⟨w, hw, hnode⟩ := h.above v hv p hp
      exact ⟨w, List.mem_append_left _ hw, hnode⟩
    · rw [List.mem_singleton.mp hv] at hp
      cases hp
      exact ⟨u, List.mem_append_left _ hu, rfl⟩

theorem Stamps.scopeOrRoot (h : l.Stamps t root scope done) {v : Visit} (hv : v ∈ done) :
    l.scope? v.node = some (l.scopeOrRoot v.node) := by
  rw [Links.scopeOrRoot]
  have hsome := h.hasScope v hv
  rw [Option.isSome_iff_exists] at hsome
  obtain ⟨s, hs⟩ := hsome
  rw [hs]
  rfl

end Links

namespace Hoist

variable (host : HostRules) {t : Tree} {root : NodeId} {scope : ScopeId} {done : List Visit} {s : State}

/-- A child is recorded with its parent; a block-like one gets a new scope, any other that of its
parent. -/
theorem link_links (node parent : NodeId) : (link t node (some parent) s).2.links =
    (s.links.setParent node parent).setScope node
      (if Tag.isBlock (t.tag node) then s.scopes.size else s.links.scopeOrRoot parent) := by
  unfold link
  simp only
  split <;> rfl

/-- Recording the place of a node stamps it. -/
theorem link_stamps {v : Visit} (hv : t.NextVisit root done v)
    (h : s.links.Stamps t root scope done) :
    (link t v.node v.parent s).2.links.Stamps t root scope (done ++ [v]) := by
  cases hv with
  | root hdone =>
    subst hdone
    exact h.visitRoot
  | @child u hu node hopens hroot hnew =>
    rw [Visit.child_node, Visit.child_parent, link_links]
    refine h.visitChild hu hroot hnew fun hblock => ?_
    rw [if_neg (by simp [hblock])]
    exact h.scopeOrRoot hu

/-- What a node's kind declares shows in the links as its target only. -/
theorem Rule.links_eq {rule : Rule} (hhost : ∀ name, rule ≠ .host name) (hlink : rule ≠ .link)
    (node : NodeId) (parent : Option NodeId) :
    (rule.meaning host t node parent s).2.links = s.links ∨
      ∃ target, (rule.meaning host t node parent s).2.links = s.links.setTarget node target := by
  cases rule with
  | link => exact absurd rfl hlink
  | skip => exact Or.inl rfl
  | classBody =>
    simp only [Rule.meaning, Hoist.classBody]
    split
    · exact Or.inl rfl
    · exact Or.inr ⟨_, rfl⟩
  | catchBlock =>
    simp only [Rule.meaning, Hoist.catchBlock]
    split
    · split
      · split
        · exact Or.inr ⟨_, rfl⟩
        · exact Or.inl rfl
      · exact Or.inl rfl
    · exact Or.inl rfl
  | host name => exact absurd rfl (hhost name)
  | _ => exact Or.inr ⟨_, rfl⟩

theorem defaultRules_ne_link {tag : String} : defaultRules.rule? tag ≠ some .link := by
  intro h
  have hmem := mem_tagRules h
  simp [tagRules] at hmem

theorem step_stamps {v : Visit} (hv : t.NextVisit root done v)
    (h : s.links.Stamps t root scope done) :
    (step host t s v).links.Stamps t root scope (done ++ [v]) := by
  have hlinked := link_stamps hv h
  rw [step_eq]
  split
  next rule hrule =>
    have hhost := defaultRules_ne_host (Or.inr ⟨_, hrule⟩)
    have hlink : rule ≠ .link := by
      rintro rfl
      exact defaultRules_ne_link hrule
    rcases Rule.links_eq host hhost hlink v.node v.parent with heq | ⟨target, heq⟩
    · rw [heq]
      exact hlinked
    · rw [heq]
      exact hlinked.setTarget v.node target
  · exact hlinked

/-- Targets stay, and declarators and function declarations get one. -/
theorem step_target? (v : Visit) (n : NodeId)
    (h : (s.links.target? n).isSome ∨ n = v.node ∧ Tag.isTargeted (t.tag v.node)) :
    ((step host t s v).links.target? n).isSome := by
  have hlinked : (link t v.node v.parent s).2.links.target? n = s.links.target? n := by
    unfold link
    split
    · rfl
    · simp only
      split <;> rfl
  rw [step_eq]
  rcases h with h | ⟨rfl, htag⟩
  · split
    next rule hrule =>
      have hlink : rule ≠ .link := by
        rintro rfl
        exact defaultRules_ne_link hrule
      rcases Rule.links_eq host (defaultRules_ne_host (Or.inr ⟨_, hrule⟩)) hlink v.node v.parent with
        heq | ⟨target, heq⟩
      · rw [heq, hlinked]
        exact h
      · rw [heq, Links.target?_setTarget, hlinked]
        split
        · rfl
        · exact h
    · rw [hlinked]
      exact h
  · split
    next rule hrule =>
      have hmem := mem_tagRules hrule
      simp only [Tag.isTargeted, Bool.or_eq_true, decide_eq_true_eq] at htag
      rcases htag with htag | htag
      · have heq : rule = .variableDeclarator := by simpa [htag, tagRules] using hmem
        simp [heq, Rule.meaning, variableDeclarator, State.declare, Links.target?_setTarget]
      · have heq : rule = .functionDeclaration := by simpa [htag, tagRules] using hmem
        simp [heq, Rule.meaning, functionDeclaration, State.declare, Links.target?_setTarget]
    next hrule =>
      have hmem := not_mem_tagRules hrule
      simp [tagRules] at hmem
      simp [Tag.isTargeted, hmem] at htag

end Hoist

/-- The links of a resolution of what is walked to from `root`, in `scope`. -/
structure Links.Stamped (t : Tree) (root : NodeId) (scope : ScopeId) (l : Links) : Prop where
  root_eq : l.root = root
  rootScope_eq : l.rootScope = scope
  root_scope : l.scope? root = some scope
  contains_iff : ∀ n, l.contains n = true ↔ t.Walked root n
  parent_root : l.parent? root = none
  parent_eq : ∀ {p n}, t.Walked root p → t.Opens p n → l.parent? n = some p
  inherited : ∀ {p n}, t.Walked root p → t.Opens p n → Tag.isBlock (t.tag n) = false →
    l.scope? n = l.scope? p
  targeted : ∀ {n}, t.Walked root n → Tag.isTargeted (t.tag n) → (l.target? n).isSome

/-- A resolution stamps exactly the nodes that are walked to. -/
theorem Resolver.run_stamped {r : Resolver} (hr : r.rules = Hoist.defaultRules) {t : Tree}
    (ht : t.Proper) {root : NodeId} (hroot : root < t.size) (scope : ScopeId) (g : ScopeGraph) :
    (r.run t root scope g).links.Stamped t root scope := by
  have hfold := ht.foldl_visits root
    (fun done (s : Hoist.State) => s.links.Stamps t root scope done ∧
      ∀ v ∈ done, Tag.isTargeted (t.tag v.node) → (s.links.target? v.node).isSome)
    (Hoist.step r.host t) (s := ⟨.start root scope, g⟩) ⟨Links.stamps_start, by simp⟩ (by
      rintro done v s hv ⟨hstamps, htargets⟩
      refine ⟨Hoist.step_stamps r.host hv hstamps, fun w hw htag => Hoist.step_target? r.host v w.node ?_⟩
      rcases List.mem_append.mp hw with hw | hw
      · exact Or.inl (htargets w hw htag)
      · rw [List.mem_singleton.mp hw] at htag ⊢
        exact Or.inr ⟨rfl, htag⟩)
  rw [← run_eq_foldl hr] at hfold
  obtain ⟨hstamps, htargets⟩ := hfold
  refine ⟨hstamps.root_eq, hstamps.rootScope_eq, hstamps.root_scope, ?_, ?_, ?_, ?_, ?_⟩
  · intro n
    rw [ht.walked_iff_visited hroot, Links.contains]
    constructor
    · intro hn
      rcases hstamps.visited n hn with rfl | hv
      · exact ⟨.start n, Tree.mem_visits_start hroot, rfl⟩
      · exact hv
    · rintro ⟨v, hv, rfl⟩
      exact hstamps.hasScope v hv
  · exact hstamps.parent_eq _ (Tree.mem_visits_start hroot)
  · intro p n hp hopens
    obtain ⟨v, hv, rfl, hparent⟩ := ht.exists_visit_child hroot hp hopens
    rw [hstamps.parent_eq v hv, hparent]
  · intro p n hp hopens hblock
    obtain ⟨v, hv, rfl, hparent⟩ := ht.exists_visit_child hroot hp hopens
    exact hstamps.inherited v hv p hparent hblock
  · intro n hn htag
    obtain ⟨v, hv, rfl⟩ := (ht.walked_iff_visited hroot).mp hn
    exact htargets v hv htag

/-- The resolution of a function body. -/
theorem Resolver.resolveBody_stamped {r : Resolver} (hr : r.rules = Hoist.defaultRules) {t : Tree}
    (ht : t.Proper) {body : NodeId} (hbody : body < t.size) (scope : ScopeId) (g : ScopeGraph) :
    (r.resolveBody t body scope g).links.Stamped t body scope :=
  run_stamped hr ht hbody scope _

/-- The resolution of a whole tree. -/
theorem Resolver.resolve_stamped {r : Resolver} (hr : r.rules = Hoist.defaultRules) {t : Tree}
    (ht : t.Proper) {scope : ScopeId} {g : ScopeGraph} {s : Hoist.State}
    (h : r.resolve t scope g = .ok s) : s.links.Stamped t t.root scope := by
  rw [resolve] at h
  split at h
  · cases h
  · cases h
    exact run_stamped hr ht ht.root_lt scope _

end ScriptCore

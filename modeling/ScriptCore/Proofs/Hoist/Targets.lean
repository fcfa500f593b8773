import ScriptCore.Proofs.Hoist.Reserved

/-!
# Where function declarations go

A function declaration goes to the scope of the nearest function, class or root above the owner of the
scope it stands in. A resolution climbs there at the moment of the visit, but what it finds on the way is
recorded for good, and so the target can be read off the finished links (`Resolver.run_targeted`): it
depends on the scope of the declaration only (`Links.Directs`).
-/
namespace ScriptCore

namespace Links

/-- What the first links have recorded of visited nodes, the second ones have as well. -/
structure Continues (l l' : Links) : Prop where
  root_eq : l'.root = l.root
  scope : ∀ n own, l.scope? n = some own → l'.scope? n = some own
  parent : ∀ n, l.contains n = true → l'.parent? n = l.parent? n

/-- Above a visited node there are visited nodes. -/
def Climbs (l : Links) : Prop := ∀ n p, l.contains n = true → l.parent? n = some p → l.contains p = true

variable {t : Tree} {l l' : Links} {g g' : ScopeGraph}

theorem contains_of_scope? {n : NodeId} {own : ScopeId} (h : l.scope? n = some own) :
    l.contains n = true := by
  rw [contains, h]
  rfl

theorem Continues.contains (h : l.Continues l') {n : NodeId} (hn : l.contains n = true) :
    l'.contains n = true := by
  obtain ⟨own, hown⟩ := Option.isSome_iff_exists.mp hn
  exact contains_of_scope? (h.scope n own hown)

theorem Continues.scopeOrRoot (h : l.Continues l') {n : NodeId} (hn : l.contains n = true) :
    l'.scopeOrRoot n = l.scopeOrRoot n := by
  obtain ⟨own, hown⟩ := Option.isSome_iff_exists.mp hn
  rw [Links.scopeOrRoot, Links.scopeOrRoot, hown, h.scope n own hown]
  rfl

/-- Climbing from a visited node finds a visited node, and later the same one. -/
theorem Continues.functionNodeWithin (h : l.Continues l') (hclimbs : l.Climbs) {fuel : Nat} {n : NodeId}
    (hn : l.contains n = true) :
    l'.functionNodeWithin t fuel n = l.functionNodeWithin t fuel n ∧
      l.contains (l.functionNodeWithin t fuel n) = true := by
  induction fuel generalizing n with
  | zero => exact ⟨rfl, hn⟩
  | succ fuel ih =>
    rw [Links.functionNodeWithin, Links.functionNodeWithin, h.root_eq, h.parent n hn]
    split
    · exact ⟨rfl, hn⟩
    · cases hp : l.parent? n with
      | none => exact ⟨rfl, hn⟩
      | some p => exact ih (hclimbs n p hn hp)

/-- So a function scope stays what it is, if the owner of the scope it is climbed from stays. -/
theorem Continues.functionScope (h : l.Continues l') (hclimbs : l.Climbs) {scope : ScopeId} {b : NodeId}
    (howner : (g.get scope).owner = some b) (hb : l.contains b = true)
    (howner' : (g'.get scope).owner = some b) :
    l'.functionScope t g' scope = l.functionScope t g scope := by
  have hclimb : l'.functionNodeWithin t t.size b = l.functionNodeWithin t t.size b ∧
      l.contains (l.functionNodeWithin t t.size b) = true := h.functionNodeWithin hclimbs hb
  obtain ⟨hnode, hfound⟩ := hclimb
  have hown : (some b).filter l.contains = some b := by rw [Option.filter_some, if_pos hb]
  have hown' : (some b).filter l'.contains = some b := by
    rw [Option.filter_some, if_pos (h.contains hb)]
  rw [Links.functionScope, Links.functionScope, howner, howner', hown, hown']
  simp only
  rw [hnode, h.scopeOrRoot hfound]

theorem continues_setTarget (node : NodeId) (target : ScopeId) : l.Continues (l.setTarget node target) :=
  ⟨rfl, fun _ _ h => h, fun _ _ => rfl⟩

/-- Recording the place of a new node leaves the records of the others. -/
theorem continues_visit {node p : NodeId} {own : ScopeId} (hnew : l.contains node = false) :
    l.Continues ((l.setParent node p).setScope node own) := by
  have hne {n : NodeId} (hn : l.contains n = true) : node ≠ n := by
    rintro rfl
    rw [hnew] at hn
    cases hn
  refine ⟨rfl, fun n other hother => ?_, fun n hn => ?_⟩
  · rw [scope?_setScope, if_neg (hne (contains_of_scope? hother)), scope?_setParent, hother]
  · rw [parent?_setScope, parent?_setParent, if_neg (hne hn)]

variable {root : NodeId} {scope : ScopeId} {done : List Visit}

theorem Stamps.climbs (h : l.Stamps t root scope done) : l.Climbs := by
  intro n p _ hp
  obtain ⟨v, hv, rfl⟩ := h.parents n p hp
  rw [h.parent_eq v hv] at hp
  obtain ⟨u, hu, rfl⟩ := h.above v hv p hp
  exact h.hasScope u hu

/-- A node that comes next is not there yet. -/
theorem Stamps.not_contains (h : l.Stamps t root scope done) {node : NodeId} (hroot : node ≠ root)
    (hnew : ∀ w ∈ done, w.node ≠ node) : l.contains node = false := by
  rw [contains, Option.isSome_eq_false_iff, Option.isNone_iff_eq_none]
  by_contra hsome
  obtain hr | ⟨v, hv, hnode⟩ := h.visited node (Option.ne_none_iff_isSome.mp hsome)
  · exact hroot hr
  · exact hnew v hv hnode

end Links

namespace Hoist

/-- Every recorded scope is there and belongs to a visited node. -/
def State.Owned (s : State) : Prop :=
  ∀ n own, s.links.scope? n = some own → own < s.scopes.size ∧
    ∃ b, (s.scopes.get own).owner = some b ∧ s.links.contains b = true

/-- The scope that function declarations go to from the scope of a node. -/
def State.functionTarget (s : State) (t : Tree) (n : NodeId) : ScopeId :=
  s.links.functionScope t s.scopes (s.links.scopeOrRoot n)

/-- A resolution after some visits: targets are those of visited nodes, and each function declaration
has gone where it goes from its scope. -/
structure State.Targeted (t : Tree) (root : NodeId) (scope : ScopeId) (done : List Visit) (s : State) :
    Prop where
  stamps : s.links.Stamps t root scope done
  owned : s.Owned
  visited : ∀ n target, s.links.target? n = some target → ∃ v ∈ done, v.node = n
  functions : ∀ v ∈ done, t.tag v.node = "FunctionDeclaration" →
    s.links.target? v.node = some (s.functionTarget t v.node)

variable (host : HostRules) {t : Tree} {root : NodeId} {scope : ScopeId} {done : List Visit} {s s' : State}
  {v : Visit}

/-- From a visited node, function declarations go on going where they went. -/
theorem State.Owned.functionTarget_eq (h : s.Owned) (hclimbs : s.links.Climbs)
    (hlinks : s.links.Continues s'.links)
    (howner : ∀ own < s.scopes.size, (s'.scopes.get own).owner = (s.scopes.get own).owner) {n : NodeId}
    (hn : s.links.contains n = true) : s'.functionTarget t n = s.functionTarget t n := by
  obtain ⟨own, hown⟩ := Option.isSome_iff_exists.mp hn
  obtain ⟨hlt, b, hb, hcontains⟩ := h n own hown
  have heq : s.links.scopeOrRoot n = own := by
    rw [Links.scopeOrRoot, hown]
    rfl
  rw [functionTarget, functionTarget, hlinks.scopeOrRoot hn, heq]
  exact hlinks.functionScope hclimbs hb hcontains ((howner own hlt).trans hb)

/-! ## Recording a place -/

/-- Recording the place of a new node leaves what is recorded of the others. -/
theorem link_continues (hv : t.NextVisit root done v) (h : s.links.Stamps t root scope done) :
    s.links.Continues (link t v.node v.parent s).2.links := by
  cases hv with
  | root hdone => exact ⟨rfl, fun _ _ hown => hown, fun _ _ => rfl⟩
  | child u hu hopens hroot hnew =>
    rw [Visit.child_node, Visit.child_parent, link_links]
    exact Links.continues_visit (h.not_contains hroot hnew)

theorem link_owner (own : ScopeId) (hown : own < s.scopes.size) :
    ((link t v.node v.parent s).2.scopes.get own).owner = (s.scopes.get own).owner := by
  cases hparent : v.parent with
  | none => rfl
  | some p => exact (get_link (t := t) v.node p hown).1

theorem link_target? (n : NodeId) :
    (link t v.node v.parent s).2.links.target? n = s.links.target? n := by
  cases hparent : v.parent with
  | none => rfl
  | some p => rw [link_links, Links.target?_setScope, Links.target?_setParent]

/-- A recorded node has the scope of its parent, or a new one that belongs to it. -/
theorem link_owned (hv : t.NextVisit root done v) (hstamps : s.links.Stamps t root scope done)
    (h : s.Owned) : State.Owned (link t v.node v.parent s).2 := by
  have hcontinues := link_continues hv hstamps
  have hold {own : ScopeId} (hown : own < s.scopes.size ∧
      ∃ b, (s.scopes.get own).owner = some b ∧ s.links.contains b = true) :
      own < (link t v.node v.parent s).2.scopes.size ∧
        ∃ b, ((link t v.node v.parent s).2.scopes.get own).owner = some b ∧
          (link t v.node v.parent s).2.links.contains b = true := by
    obtain ⟨hlt, b, hb, hcontains⟩ := hown
    refine ⟨Nat.lt_of_lt_of_le hlt (keptIn_link v.node v.parent).size_le, b, ?_, hcontinues.contains hcontains⟩
    rw [link_owner own hlt, hb]
  cases hv with
  | root hdone => exact h
  | @child u hu node hopens hroot hnew =>
    intro n own hown
    rw [Visit.child_node, Visit.child_parent] at *
    by_cases hn : node = n
    · subst hn
      rw [scope?_link_self] at hown
      cases hown
      split
      next hblock =>
        have hscope := scope?_link_self (t := t) (s := s) node u.node
        rw [link_scopes, if_pos hblock, ScopeGraph.size_openBlock]
        exact ⟨Nat.lt_succ_self _, node, (ScopeGraph.get_openBlock_new _ _ _).1,
          Links.contains_of_scope? hscope⟩
      · exact hold (h u.node _ (hstamps.scopeOrRoot hu))
    · rw [scope?_link hn] at hown
      exact hold (h n own hown)

/-! ## Declaring -/

theorem declare_owner (node : NodeId) (target : ScopeId) (names : List String) (own : ScopeId) :
    ((s.declare node target names).scopes.get own).owner = (s.scopes.get own).owner := by
  have hsame : s.scopes.SameBut target (s.declare node target names).scopes :=
    ScopeGraph.sameBut_declareNew s.scopes target names
  by_cases hown : own = target
  · rw [hown, hsame.owner_eq]
  · rw [hsame.get_eq own hown]

theorem State.Owned.declare (h : s.Owned) (node : NodeId) (target : ScopeId) (names : List String) :
    (s.declare node target names).Owned := by
  intro n own hown
  obtain ⟨hlt, b, hb, hcontains⟩ := h n own hown
  have hsize : (s.declare node target names).scopes.size = s.scopes.size :=
    (ScopeGraph.sameBut_declareNew s.scopes target names).size_eq
  exact ⟨hsize ▸ hlt, b, (declare_owner node target names own).trans hb, hcontains⟩

/-- After its place is recorded, a node may declare names in one scope: a function declaration does, where
it goes from its scope. -/
theorem step_declares (v : Visit) :
    (step host t s v = (link t v.node v.parent s).2 ∧ t.tag v.node ≠ "FunctionDeclaration") ∨
      ∃ target names, step host t s v = (link t v.node v.parent s).2.declare v.node target names ∧
        (t.tag v.node = "FunctionDeclaration" →
          target = State.functionTarget (link t v.node v.parent s).2 t v.node) := by
  by_cases htag : t.tag v.node = "FunctionDeclaration"
  · have hrule : defaultRules.rule? (t.tag v.node) = some .functionDeclaration := by
      rw [htag]
      rfl
    right
    rw [step_eq, hrule]
    exact ⟨_, _, rfl, fun _ => rfl⟩
  · obtain heq | ⟨target, names, heq⟩ := step_cases host (t := t) (s := s) v
    · exact Or.inl ⟨heq, htag⟩
    · exact Or.inr ⟨target, names, heq, fun h => absurd h htag⟩

/-- Declaring leaves where function declarations go. -/
theorem State.Owned.functionTarget_declare (h : s.Owned) (hclimbs : s.links.Climbs) (node : NodeId)
    (target : ScopeId) (names : List String) {n : NodeId} (hn : s.links.contains n = true) :
    (s.declare node target names).functionTarget t n = s.functionTarget t n :=
  h.functionTarget_eq hclimbs (Links.continues_setTarget node target)
    (fun own _ => declare_owner node target names own) hn

/-! ## The whole resolution -/

/-- Recording the place of a node leaves the targets where they are. -/
theorem State.Targeted.link_functions (h : s.Targeted t root scope done) (hv : t.NextVisit root done v) :
    ∀ w ∈ done, t.tag w.node = "FunctionDeclaration" →
      (link t v.node v.parent s).2.links.target? w.node =
        some (State.functionTarget (link t v.node v.parent s).2 t w.node) := by
  intro w hw htag
  have hstays : State.functionTarget (link t v.node v.parent s).2 t w.node = s.functionTarget t w.node :=
    h.owned.functionTarget_eq h.stamps.climbs (link_continues hv h.stamps) link_owner (h.stamps.hasScope w hw)
  rw [link_target?, hstays]
  exact h.functions w hw htag

theorem State.Targeted.step (h : s.Targeted t root scope done) (hv : t.NextVisit root done v) :
    (Hoist.step host t s v).Targeted t root scope (done ++ [v]) := by
  have hlinked : (link t v.node v.parent s).2.links.Stamps t root scope (done ++ [v]) := link_stamps hv h.stamps
  have howned := link_owned hv h.stamps h.owned
  have hfunctions := h.link_functions hv
  have hold {w : Visit} (hw : w ∈ done) : v.node ≠ w.node := by
    cases hv with
    | root hdone => simp [hdone] at hw
    | child u hu hopens hroot hnew => exact (hnew w hw).symm
  have hvisited (n : NodeId) (target : ScopeId)
      (hn : (link t v.node v.parent s).2.links.target? n = some target) : ∃ w ∈ done ++ [v], w.node = n := by
    rw [link_target?] at hn
    obtain ⟨w, hw, hnode⟩ := h.visited n target hn
    exact ⟨w, List.mem_append_left _ hw, hnode⟩
  obtain ⟨heq, hother⟩ | ⟨target, names, heq, hown⟩ := step_declares host (t := t) (s := s) v
  · rw [heq]
    refine ⟨hlinked, howned, hvisited, fun w hw htag => ?_⟩
    obtain hw | hw := List.mem_append.mp hw
    · exact hfunctions w hw htag
    · rw [List.mem_singleton.mp hw] at htag
      exact absurd htag hother
  · rw [heq]
    refine ⟨hlinked.setTarget _ _, howned.declare _ _ _, fun n other hn => ?_, fun w hw htag => ?_⟩
    · rw [State.declare, Links.target?_setTarget] at hn
      split at hn
      next hnode => exact ⟨v, by simp, hnode⟩
      · exact hvisited n other hn
    · rw [howned.functionTarget_declare hlinked.climbs _ _ _ (hlinked.hasScope w hw), State.declare,
        Links.target?_setTarget]
      obtain hw | hw := List.mem_append.mp hw
      · rw [if_neg (hold hw)]
        exact hfunctions w hw htag
      · rw [List.mem_singleton.mp hw] at htag ⊢
        rw [if_pos rfl, hown htag]

theorem targeted_start {g : ScopeGraph} (hscope : scope < g.size) (howner : (g.get scope).owner = some root) :
    State.Targeted t root scope [] ⟨.start root scope, g⟩ where
  stamps := Links.stamps_start
  owned n own hown := by
    have hroot : (Links.start root scope).contains root = true :=
      Links.contains_of_scope? (by rw [Links.scope?_start, if_pos rfl])
    rw [Links.scope?_start] at hown
    split at hown
    · cases hown
      exact ⟨hscope, root, howner, hroot⟩
    · cases hown
  visited n target hn := by simp [Links.target?, Links.start] at hn
  functions := by simp

end Hoist

namespace Resolver

variable {r : Resolver} {t : Tree} {root : NodeId} {scope : ScopeId} {g : ScopeGraph}

/-- **Where function declarations go**, in links that are finished. -/
theorem run_targeted (hr : r.rules = Hoist.defaultRules) (ht : t.Proper) (hscope : scope < g.size)
    (howner : (g.get scope).owner = some root) :
    (r.run t root scope g).Targeted t root scope (t.visits root) := by
  rw [run_eq_foldl hr]
  exact ht.foldl_visits root (fun done s => Hoist.State.Targeted t root scope done s) (Hoist.step r.host t)
    (Hoist.targeted_start hscope howner) fun _ _ _ hv h => h.step r.host hv

end Resolver

/-- Links by which the function declarations of one scope go to one scope, which is among the first `n`. -/
structure Links.Directs (t : Tree) (n : Nat) (l : Links) : Prop where
  stamped : l.Stamped t l.root l.rootScope
  walked : ∀ d target, l.target? d = some target → t.Walked l.root d
  lt : ∀ d target, t.tag d = "FunctionDeclaration" → l.target? d = some target → target < n
  same : ∀ d e target other, t.tag d = "FunctionDeclaration" → t.tag e = "FunctionDeclaration" →
    l.target? d = some target → l.target? e = some other → l.scope? d = l.scope? e → target = other

theorem Links.Directs.mono {t : Tree} {n m : Nat} {l : Links} (h : l.Directs t n) (hle : n ≤ m) :
    l.Directs t m :=
  ⟨h.stamped, h.walked, fun d target htag htarget => Nat.lt_of_lt_of_le (h.lt d target htag htarget) hle, h.same⟩

theorem Resolver.run_directs {r : Resolver} (hr : r.rules = Hoist.defaultRules) {t : Tree} (ht : t.Proper)
    {root : NodeId} (hroot : root < t.size) {scope : ScopeId} {g : ScopeGraph} (hscope : scope < g.size)
    (howner : (g.get scope).owner = some root) :
    (r.run t root scope g).links.Directs t (r.run t root scope g).scopes.size := by
  have hstamped := run_stamped hr ht hroot scope g
  have htargeted := run_targeted hr ht hscope howner
  have hrecorded : (r.run t root scope g).Recorded := (run_recorded hr ht hscope).1
  have htarget {d : NodeId} {target : ScopeId} (htag : t.tag d = "FunctionDeclaration")
      (hd : (r.run t root scope g).links.target? d = some target) :
      target = (r.run t root scope g).functionTarget t d := by
    obtain ⟨v, hv, rfl⟩ := htargeted.visited d target hd
    exact Option.some.inj (hd.symm.trans (htargeted.functions v hv htag))
  refine ⟨?_, fun d target hd => ?_, fun d target htag hd => ?_, fun d e target other hd he htd hte hsame => ?_⟩
  · rw [hstamped.root_eq, hstamped.rootScope_eq]
    exact hstamped
  · obtain ⟨v, hv, rfl⟩ := htargeted.visited d target hd
    rw [hstamped.root_eq]
    exact Tree.walked_of_mem_visitsWithin hv
  · rw [htarget htag hd]
    exact hrecorded.functionScope_lt (hrecorded.scopeOrRoot_lt d)
  · rw [htarget hd htd, htarget he hte, Hoist.State.functionTarget, Hoist.State.functionTarget,
      Links.scopeOrRoot, Links.scopeOrRoot, hsame]

end ScriptCore

import ScriptCore.Proofs.Hoist.Declared
import ScriptCore.Proofs.Scope.Shape
import ScriptCore.Proofs.Tree.Grammar

/-!
# Reserved names

What a visit declares, it declares in one scope, which is recorded as the target of the node. Later visits
leave that record and only add to the names of scopes. So in the end each declarator and each function
declaration has a target that owns its names, and the body of a catch clause owns those of the parameter
(`Resolver.resolve_reserves`).
-/
namespace ScriptCore

namespace ScopeGraph

variable {g : ScopeGraph} {s : ScopeId}

theorem keptIn_declareNew (g : ScopeGraph) (s : ScopeId) (names : List String) :
    g.KeptIn (g.declareNew s names) := by
  induction names generalizing g with
  | nil => exact .refl g
  | cons name rest ih =>
    rw [declareNew, List.foldl_cons, ← declareNew]
    split
    · exact ih g
    · exact (keptIn_declare g s name .undefined).trans (ih _)

theorem subset_ownNames_declareNew (hs : s < g.size) (names : List String) :
    names ⊆ (g.declareNew s names).ownNames s := by
  have hkeys := keys_declareNew hs names (eraseDups_of_nodup (Dict.keys_nodup (g.get s).cells)).symm
  intro name hname
  rw [ownNames, hkeys, List.mem_eraseDups]
  exact List.mem_append_right _ hname

end ScopeGraph

namespace Hoist

/-- All scopes that a resolution has recorded are there. -/
structure State.Recorded (s : State) : Prop where
  root : s.links.rootScope < s.scopes.size
  scopes : ∀ n own, s.links.scope? n = some own → own < s.scopes.size

/-- What a visit declares, the target of its node owns; a block is its own target. -/
def State.Reserves (t : Tree) (root : NodeId) (v : Visit) (s : State) : Prop :=
  ∀ b names, t.declared root v = some (b, names) → names ≠ [] →
    ∃ target, s.links.target? v.node = some target ∧ names ⊆ s.scopes.ownNames target ∧
      (t.tag v.node = "BlockStatement" → s.links.scope? v.node = some target)

variable (host : HostRules) {t : Tree} {s : State} {root : NodeId} {v : Visit}

/-! ## Scopes that are there -/

theorem State.Recorded.scopeOrRoot_lt (h : s.Recorded) (n : NodeId) :
    s.links.scopeOrRoot n < s.scopes.size := by
  rw [Links.scopeOrRoot]
  cases hown : s.links.scope? n with
  | none => exact h.root
  | some own => exact h.scopes n own hown

theorem State.Recorded.functionScope_lt (h : s.Recorded) {scope : ScopeId} (hscope : scope < s.scopes.size) :
    s.links.functionScope t s.scopes scope < s.scopes.size := by
  rw [Links.functionScope]
  split
  · exact h.scopeOrRoot_lt _
  · exact hscope

theorem recorded_start {g : ScopeGraph} {scope : ScopeId} (hscope : scope < g.size) (root : NodeId) :
    State.Recorded ⟨.start root scope, g⟩ where
  root := hscope
  scopes n own hown := by
    rw [Links.scope?_start] at hown
    split at hown
    · cases hown
      exact hscope
    · cases hown

theorem State.Recorded.declare (h : s.Recorded) (node : NodeId) (target : ScopeId) (names : List String) :
    (s.declare node target names).Recorded := by
  have hsize : (s.declare node target names).scopes.size = s.scopes.size :=
    (ScopeGraph.sameBut_declareNew s.scopes target names).size_eq
  exact ⟨hsize ▸ h.root, fun n own hown => hsize ▸ h.scopes n own hown⟩

theorem State.Recorded.link (h : s.Recorded) (node : NodeId) (parent : Option NodeId) :
    (link t node parent s).2.Recorded := by
  cases parent with
  | none => exact h
  | some p =>
    have hsize := size_link (t := t) (s := s) node p
    have hrootScope : (Hoist.link t node (some p) s).2.links.rootScope = s.links.rootScope := by
      rw [link_links]
      rfl
    refine ⟨hrootScope ▸ Nat.lt_of_lt_of_le h.root hsize, fun n own hown => ?_⟩
    by_cases hn : node = n
    · rw [← hn, scope?_link_self] at hown
      cases hown
      rw [link_scopes]
      split
      · rw [ScopeGraph.size_openBlock]
        exact Nat.lt_succ_self _
      · exact h.scopeOrRoot_lt p
    · rw [scope?_link hn] at hown
      exact Nat.lt_of_lt_of_le (h.scopes n own hown) hsize

theorem keptIn_link (node : NodeId) (parent : Option NodeId) :
    s.scopes.KeptIn (link t node parent s).2.scopes := by
  cases parent with
  | none => exact .refl _
  | some p =>
    refine ⟨size_link node p, fun own name hname => ?_⟩
    obtain ⟨-, -, hcells⟩ := get_link (t := t) node p (ScopeGraph.lt_size_of_own hname)
    rwa [ScopeGraph.ownNames, hcells]

/-! ## What a visit does -/

/-- After its place is recorded, a node may declare names in one scope. -/
theorem Rule.meaning_eq {rule : Rule} (hhost : ∀ name, rule ≠ .host name) (hlink : rule ≠ .link)
    (node : NodeId) (parent : Option NodeId) :
    (rule.meaning host t node parent s).2 = s ∨
      ∃ target names, (rule.meaning host t node parent s).2 = s.declare node target names := by
  cases rule with
  | link => exact absurd rfl hlink
  | skip => exact Or.inl rfl
  | classBody =>
    simp only [Rule.meaning, Hoist.classBody]
    split
    · exact Or.inl rfl
    · exact Or.inr ⟨_, _, rfl⟩
  | catchBlock =>
    simp only [Rule.meaning, Hoist.catchBlock]
    split
    · split
      · split
        · exact Or.inr ⟨_, _, rfl⟩
        · exact Or.inl rfl
      · exact Or.inl rfl
    · exact Or.inl rfl
  | host name => exact absurd rfl (hhost name)
  | _ => exact Or.inr ⟨_, _, rfl⟩

theorem step_cases (v : Visit) :
    step host t s v = (link t v.node v.parent s).2 ∨
      ∃ target names, step host t s v = (link t v.node v.parent s).2.declare v.node target names := by
  rw [step_eq]
  split
  next rule hrule =>
    have hlink : rule ≠ .link := by
      rintro rfl
      exact defaultRules_ne_link hrule
    exact Rule.meaning_eq host (defaultRules_ne_host (Or.inr ⟨_, hrule⟩)) hlink v.node v.parent
  · exact Or.inl rfl

theorem step_recorded (h : s.Recorded) (v : Visit) : (step host t s v).Recorded := by
  obtain heq | ⟨target, names, heq⟩ := step_cases host (t := t) (s := s) v
  · exact heq ▸ h.link v.node v.parent
  · exact heq ▸ (h.link v.node v.parent).declare v.node target names

theorem step_keptIn (v : Visit) : s.scopes.KeptIn (step host t s v).scopes := by
  have hlink := keptIn_link (t := t) (s := s) v.node v.parent
  obtain heq | ⟨target, names, heq⟩ := step_cases host (t := t) (s := s) v
  · exact heq ▸ hlink
  · exact heq ▸ hlink.trans (ScopeGraph.keptIn_declareNew _ target names)

/-- The records of other nodes stay. -/
theorem step_links {n : NodeId} (hn : v.node ≠ n) :
    (step host t s v).links.target? n = s.links.target? n ∧
      (step host t s v).links.scope? n = s.links.scope? n := by
  have hlink : (link t v.node v.parent s).2.links.target? n = s.links.target? n ∧
      (link t v.node v.parent s).2.links.scope? n = s.links.scope? n := by
    cases hparent : v.parent with
    | none => exact ⟨rfl, rfl⟩
    | some p =>
      refine ⟨?_, scope?_link hn⟩
      rw [link_links, Links.target?_setScope, Links.target?_setParent]
  obtain heq | ⟨target, names, heq⟩ := step_cases host (t := t) (s := s) v
  · rwa [heq]
  · rw [heq, State.declare, Links.target?_setTarget, if_neg hn, Links.scope?_setTarget]
    exact hlink

/-- The rule of a node declares what the node declares, in a scope that there is. -/
theorem Rule.declares {rule : Rule} (hrule : defaultRules.rule? (t.tag v.node) = some rule)
    {b : NodeId} {names : List String} (hdeclared : t.declared root v = some (b, names))
    (hnames : names ≠ []) (h : s.Recorded) :
    ∃ target, (rule.meaning host t v.node v.parent s).2 = s.declare v.node target names ∧
      target < s.scopes.size ∧ (t.tag v.node = "BlockStatement" → target = s.links.scopeOrRoot v.node) := by
  have hscope := h.scopeOrRoot_lt
  have hfunction := h.functionScope_lt (t := t) (hscope v.node)
  have hmem := mem_tagRules hrule
  simp only [tagRules, List.mem_cons, Prod.mk.injEq, List.not_mem_nil, or_false] at hmem
  obtain ⟨htag, rfl⟩ | ⟨htag, rfl⟩ | ⟨htag, rfl⟩ | ⟨htag, rfl⟩ | ⟨htag, rfl⟩ | ⟨htag, rfl⟩ | ⟨htag, rfl⟩ |
    ⟨htag, rfl⟩ | ⟨htag, rfl⟩ | ⟨htag, rfl⟩ := hmem
  all_goals simp only [Tree.declared, htag] at hdeclared
  · simp only [Option.some.injEq, Prod.mk.injEq] at hdeclared
    obtain ⟨-, rfl⟩ := hdeclared
    refine ⟨_, rfl, ?_, by simp [htag]⟩
    split
    · exact hfunction
    · exact hscope _
  · cases hdeclared
    exact ⟨_, rfl, hfunction, by simp [htag]⟩
  · cases hdeclared
  · cases hdeclared
  · cases hdeclared
    exact ⟨_, rfl, hscope _, by simp [htag]⟩
  · simp only [Rule.meaning, Hoist.classBody]
    cases hparent : v.parent with
    | none =>
      rw [hparent] at hdeclared
      cases hdeclared
    | some p =>
      rw [hparent] at hdeclared
      by_cases hclass : t.is p "ClassExpression" = true
      · simp only [if_pos hclass] at hdeclared ⊢
        cases hdeclared
        split
        next hnone => exact absurd hnone hnames
        · exact ⟨_, rfl, hscope _, by simp [htag]⟩
      · simp only [if_neg hclass] at hdeclared
        cases hdeclared
  · simp only [Rule.meaning, Hoist.catchBlock]
    cases hparent : v.parent with
    | none =>
      rw [hparent] at hdeclared
      cases hdeclared
    | some clause =>
      rw [hparent] at hdeclared
      by_cases hclause : t.is clause "CatchClause" = true
      · simp only [if_pos hclause] at hdeclared ⊢
        obtain ⟨param, hparam, heq⟩ := Option.map_eq_some_iff.mp hdeclared
        cases heq
        rw [hparam]
        exact ⟨_, rfl, hscope _, fun _ => rfl⟩
      · simp only [if_neg hclause] at hdeclared
        cases hdeclared
  all_goals
    cases hdeclared
    exact ⟨_, rfl, hscope _, by simp [htag]⟩

/-- A visit reserves what its node declares. -/
theorem step_reserves (h : s.Recorded)
    (hscope : (link t v.node v.parent s).2.links.scope? v.node =
      some ((link t v.node v.parent s).2.links.scopeOrRoot v.node)) :
    (step host t s v).Reserves t root v := by
  intro b names hdeclared hnames
  cases hrule : defaultRules.rule? (t.tag v.node) with
  | none =>
    rw [declared_eq_none hrule] at hdeclared
    cases hdeclared
  | some rule =>
    obtain ⟨target, heq, htarget, hblock⟩ :=
      Rule.declares host hrule hdeclared hnames (h.link v.node v.parent)
    have hstep : step host t s v = (link t v.node v.parent s).2.declare v.node target names := by
      rw [step_eq, hrule]
      exact heq
    rw [hstep]
    refine ⟨target, ?_, ScopeGraph.subset_ownNames_declareNew htarget names, fun htag => ?_⟩
    · simp [State.declare, Links.target?_setTarget]
    · simp [State.declare, hscope, hblock htag]

/-- What is reserved stays reserved. -/
theorem State.Reserves.step {w : Visit} (h : s.Reserves t root w) (hne : v.node ≠ w.node) :
    (step host t s v).Reserves t root w := by
  intro b names hdeclared hnames
  obtain ⟨target, htarget, hown, hblock⟩ := h b names hdeclared hnames
  obtain ⟨hsameTarget, hsameScope⟩ := step_links host (t := t) (s := s) hne
  refine ⟨target, ?_, fun name hname => ?_, fun htag => ?_⟩
  · rw [hsameTarget, htarget]
  · exact (step_keptIn host v).names target (hown hname)
  · rw [hsameScope, hblock htag]

end Hoist

/-! ## The whole resolution -/

/-- All that a node of the tree declares belongs to the scope that the links have for it. -/
structure Links.Reserves (t : Tree) (g : ScopeGraph) (l : Links) : Prop where
  declarator : ∀ {d id}, t.Walked l.root d → t.tag d = "VariableDeclarator" → t.child? d "id" = some id →
    ∃ target, l.target? d = some target ∧ t.bindingNames id ⊆ g.ownNames target
  function : ∀ {f}, t.Walked l.root f → t.tag f = "FunctionDeclaration" →
    ∃ target, l.target? f = some target ∧ Hoist.nameIn t f "id" ⊆ g.ownNames target
  /-- the parameter of a catch clause belongs to the clause's body -/
  clause : ∀ {c body param}, t.Walked l.root c → t.tag c = "CatchClause" → t.child? c "body" = some body →
    t.tag body = "BlockStatement" → t.child? c "param" = some param →
      ∃ own, l.scope? body = some own ∧ t.bindingNames param ⊆ g.ownNames own

/-- As long as no scope and no name is lost, all of it stays there. -/
theorem Links.Reserves.later {t : Tree} {g g' : ScopeGraph} {l : Links} (h : l.Reserves t g)
    (hkept : g.KeptIn g') : l.Reserves t g' where
  declarator hd htag hid := by
    obtain ⟨target, htarget, hnames⟩ := h.declarator hd htag hid
    exact ⟨target, htarget, List.Subset.trans hnames (hkept.names target)⟩
  function hf htag := by
    obtain ⟨target, htarget, hnames⟩ := h.function hf htag
    exact ⟨target, htarget, List.Subset.trans hnames (hkept.names target)⟩
  clause hc htag hbody hblock hparam := by
    obtain ⟨own, hown, hnames⟩ := h.clause hc htag hbody hblock hparam
    exact ⟨own, hown, List.Subset.trans hnames (hkept.names own)⟩

namespace Resolver

variable {r : Resolver} {t : Tree} {root : NodeId} {scope : ScopeId} {g : ScopeGraph}

/-- After all visits, the recorded scopes are there, and each visit has reserved what it declares. -/
theorem run_recorded (hr : r.rules = Hoist.defaultRules) (ht : t.Proper) (hscope : scope < g.size) :
    (r.run t root scope g).Recorded ∧ ∀ v ∈ t.visits root, (r.run t root scope g).Reserves t root v := by
  have hfold := ht.foldl_visits root
    (fun done (s : Hoist.State) => s.links.Stamps t root scope done ∧ s.Recorded ∧
      ∀ v ∈ done, s.Reserves t root v)
    (Hoist.step r.host t) (s := ⟨.start root scope, g⟩)
    ⟨Links.stamps_start, Hoist.recorded_start hscope root, by simp⟩ (by
      rintro done v s hv ⟨hstamps, hrecorded, hreserves⟩
      have hmem : v ∈ done ++ [v] := by simp
      refine ⟨Hoist.step_stamps r.host hv hstamps, Hoist.step_recorded r.host hrecorded v, fun w hw => ?_⟩
      obtain hold | hlast := List.mem_append.mp hw
      · have hne : v.node ≠ w.node := by
          cases hv with
          | root hdone => simp [hdone] at hold
          | child u hu hopens hroot hnew => exact (hnew w hold).symm
        exact (hreserves w hold).step r.host hne
      · rw [List.mem_singleton.mp hlast]
        apply Hoist.step_reserves r.host hrecorded
        exact (Hoist.link_stamps hv hstamps).scopeOrRoot hmem)
  rw [← run_eq_foldl hr] at hfold
  exact hfold.2

/-- A node with a target reserves its names there; without names, any target will do. -/
theorem run_target (hr : r.rules = Hoist.defaultRules) (ht : t.Proper) (hroot : root < t.size)
    (hscope : scope < g.size) {n : NodeId} (hn : t.Walked root n)
    (htag : Tag.isTargeted (t.tag n) = true) {names : List String}
    (hdeclared : ∀ v : Visit, v.node = n → ∃ b, t.declared root v = some (b, names)) :
    ∃ target, (r.run t root scope g).links.target? n = some target ∧
      names ⊆ (r.run t root scope g).scopes.ownNames target := by
  obtain ⟨v, hv, rfl⟩ := (ht.walked_iff_visited hroot).mp hn
  obtain ⟨b, hb⟩ := hdeclared v rfl
  by_cases hnames : names = []
  · have hsome := (run_stamped hr ht hroot scope g).targeted hn htag
    obtain ⟨target, htarget⟩ := Option.isSome_iff_exists.mp hsome
    exact ⟨target, htarget, by simp [hnames]⟩
  · obtain ⟨target, htarget, hown, -⟩ := (run_recorded hr ht hscope).2 v hv b names hb hnames
    exact ⟨target, htarget, hown⟩

/-- **A resolution reserves all names** that the tree declares. -/
theorem run_reserves (hr : r.rules = Hoist.defaultRules) (ht : t.Proper) (hroot : root < t.size)
    (hscope : scope < g.size) :
    (r.run t root scope g).links.Reserves t (r.run t root scope g).scopes := by
  have hstamped := run_stamped hr ht hroot scope g
  constructor
  · intro d id hd htag hid
    rw [hstamped.root_eq] at hd
    apply run_target hr ht hroot hscope hd (by simp [Tag.isTargeted, htag])
    intro v hv
    simp [Tree.declared, hv, htag, hid]
  · intro f hf htag
    rw [hstamped.root_eq] at hf
    apply run_target hr ht hroot hscope hf (by simp [Tag.isTargeted, htag])
    intro v hv
    simp [Tree.declared, hv, htag, Hoist.nameIn]
  · intro c body param hc htag hbody hblock hparam
    rw [hstamped.root_eq] at hc
    have hopens : t.Opens c body := by
      constructor
      · rw [htag]
        rfl
      · apply Tree.mem_childNodes_of_field (by rw [htag]; rfl) (Tree.field?_of_child? hbody)
        exact List.mem_singleton_self body
    obtain ⟨v, hv, rfl, hparent⟩ := ht.exists_visit_child hroot hc hopens
    by_cases hnames : t.bindingNames param = []
    · have hvisited := (hstamped.contains_iff v.node).mpr (hc.tail hopens)
      obtain ⟨own, hown⟩ := Option.isSome_iff_exists.mp hvisited
      exact ⟨own, hown, by simp [hnames]⟩
    · have hdeclared : t.declared root v = some (v.node, t.bindingNames param) := by
        simp [Tree.declared, hblock, hparent, Tree.is, htag, hparam]
      obtain ⟨own, -, hown, hself⟩ := (run_recorded hr ht hscope).2 v hv _ _ hdeclared hnames
      exact ⟨own, hself hblock, hown⟩

/-- So does that of a function body. -/
theorem resolveBody_reserves (hr : r.rules = Hoist.defaultRules) (ht : t.Proper) (hroot : root < t.size)
    (hscope : scope < g.size) :
    (r.resolveBody t root scope g).links.Reserves t (r.resolveBody t root scope g).scopes ∧
      (r.resolveBody t root scope g).links.rootScope < (r.resolveBody t root scope g).scopes.size := by
  have hsize : scope < (if (g.get scope).owner.isNone then g.setOwner scope (some root) else g).size := by
    split
    · rwa [ScopeGraph.setOwner, ScopeGraph.size_modify]
    · exact hscope
  exact ⟨run_reserves hr ht hroot hsize, (run_recorded hr ht hsize).1.root⟩

/-- And that of a whole tree, in a root scope that is there. -/
theorem resolve_reserves (hr : r.rules = Hoist.defaultRules) (ht : t.Proper) (hscope : scope < g.size)
    {s : Hoist.State} (h : r.resolve t scope g = .ok s) :
    s.links.Reserves t s.scopes ∧ s.links.rootScope < s.scopes.size := by
  have hsize : scope < (g.setOwner scope (some t.root)).size := by
    rwa [ScopeGraph.setOwner, ScopeGraph.size_modify]
  rw [resolve] at h
  split at h
  · cases h
  · cases h
    exact ⟨run_reserves hr ht ht.root_lt hsize, (run_recorded hr ht hsize).1.root⟩

end Resolver

end ScriptCore

import ScriptCore.Proofs.Hoist.Stamps
import ScriptCore.Proofs.Scope.Names

/-!
# Hoisting, declaratively

What a tree declares can be read off its visits: a `var` declarator and a function declaration declare
into the root, a `let` or `const` declarator and a class declaration into the nearest block, the
parameter of a catch clause into the body of the clause, an import into the block it stands in, and a
named class expression into its body (`Tree.declared`). A resolution computes exactly that: each
block-like node gets a scope beneath that of its parent, and the names of a scope are those it had,
followed by those declared into it, each at its first occurrence (`Resolver.resolve_hoisted`).

Nothing rises past a class. So that is said of trees in which the blocks of a class are class bodies, which
hold their names back anyway; it fails of others (`not_hoisted_past_class`).
-/
namespace ScriptCore

/-! ## What a tree declares -/

namespace Tree

/-- What a visited node declares: the node into whose scope, and the names in source order. -/
def declared (t : Tree) (root : NodeId) (v : Visit) : Option (NodeId × List String) :=
  match t.tag v.node with
  | "VariableDeclarator" =>
    let isVar := ((v.parent.bind fun p => t.text? p "kind").getD "var") == "var"
    some (if isVar then root else v.block, ((t.child? v.node "id").map t.bindingNames).getD [])
  | "FunctionDeclaration" => some (root, ((t.child? v.node "id").bind t.identifierName?).toList)
  | "ClassDeclaration" => some (v.block, ((t.child? v.node "id").bind t.identifierName?).toList)
  | "ImportSpecifier" | "ImportDefaultSpecifier" | "ImportNamespaceSpecifier" =>
    some (v.block, ((t.child? v.node "local").bind t.identifierName?).toList)
  | "BlockStatement" =>
    match v.parent with
    | some clause =>
      if t.is clause "CatchClause" then
        (t.child? clause "param").map fun param => (v.node, t.bindingNames param)
      else none
    | none => none
  | "ClassBody" =>
    match v.parent with
    | some p =>
      if t.is p "ClassExpression" then some (v.node, ((t.child? p "id").bind t.identifierName?).toList)
      else none
    | none => none
  | _ => none

/-- The names that a visited node declares into the scope of `owner`. -/
def declaredAt (t : Tree) (root owner : NodeId) (v : Visit) : List String :=
  match t.declared root v with
  | some (target, names) => if target = owner then names else []
  | none => []

/-- The names that a tree declares into the scope of `owner`, in the order of the visits. -/
def declaredInto (t : Tree) (root owner : NodeId) : List String :=
  (t.visits root).flatMap (t.declaredAt root owner)

/-- The blocks visited in a class are class bodies: none sits in its `id` or `superClass`, and its body
is a class body. -/
def PlainClasses (t : Tree) (root : NodeId) : Prop :=
  ∀ c b, t.Walked root c → Tag.isClass (t.tag c) = true → t.Walked c b → Tag.isBlock (t.tag b) = true →
    t.tag b = "ClassBody"

end Tree

namespace Hoist

/-- A visited node that has a scope of its own: the root or a block-like node. -/
def Scoped (t : Tree) (root : NodeId) (done : List Visit) (b : NodeId) : Prop :=
  b = root ∨ ∃ v ∈ done, v.node = b ∧ Tag.isBlock (t.tag b) = true

/-- The names that a scope has before the resolution. -/
def namesBefore (g : ScopeGraph) (root : NodeId) (scope : ScopeId) (b : NodeId) : List String :=
  if b = root then (g.get scope).cells.keys else []

/-- A resolution after the visits in `done`, when those in `named` have declared their names. -/
structure Hoisted (t : Tree) (root : NodeId) (scope : ScopeId) (g : ScopeGraph)
    (done named : List Visit) (s : State) : Prop where
  stamps : s.links.Stamps t root scope done
  walked : ∀ v ∈ done, t.Walked root v.node
  coherent : ∀ v ∈ done, v = .start root ∨
    ∃ u ∈ done, t.Opens u.node v.node ∧ v.node ≠ root ∧ v = u.child t v.node
  /-- the block of a visit is scoped, is left open by the walk, and has the scope of the parent -/
  block : ∀ v ∈ done, ∀ p, v.parent = some p → Scoped t root done v.block ∧
    Tag.isClosed (t.tag v.block) = false ∧ s.links.scope? v.block = s.links.scope? p
  /-- every scoped node owns a scope, with the names declared into it so far -/
  owned : ∀ b, Scoped t root done b → ∃ own, s.links.scope? b = some own ∧ own < s.scopes.size ∧
    (b ≠ root → g.size ≤ own) ∧ (s.scopes.get own).owner = some b ∧
      (s.scopes.get own).cells.keys =
        (namesBefore g root scope b ++ named.flatMap (t.declaredAt root b)).eraseDups
  /-- it lies beneath the scope of the parent -/
  beneath : ∀ v ∈ done, ∀ p, v.parent = some p → Tag.isBlock (t.tag v.node) = true →
    ∃ own outer, s.links.scope? v.node = some own ∧ s.links.scope? p = some outer ∧
      own < s.scopes.size ∧ (s.scopes.get own).parent = some outer
  size_le : g.size ≤ s.scopes.size

variable {t : Tree} {root : NodeId} {scope : ScopeId} {g : ScopeGraph} {done named : List Visit}
  {s : State}

theorem Scoped.mono (v : Visit) {b : NodeId} (h : Scoped t root done b) :
    Scoped t root (done ++ [v]) b := by
  rcases h with rfl | ⟨w, hw, hb⟩
  · exact Or.inl rfl
  · exact Or.inr ⟨w, List.mem_append_left _ hw, hb⟩

/-! ## The first visit -/

theorem hoisted_start (hscope : scope < g.size) (howner : (g.get scope).owner = some root)  :
    Hoisted t root scope g [] [] ⟨.start root scope, g⟩ where
  stamps := Links.stamps_start
  walked := by simp
  coherent := by simp
  block := by simp
  owned b hb := by
    obtain rfl : b = root := by simpa [Scoped] using hb
    refine ⟨scope, by rw [Links.scope?_start, if_pos rfl], hscope, fun h => absurd rfl h, howner, ?_⟩
    rw [namesBefore, if_pos rfl, List.flatMap_nil, List.append_nil]
    exact (eraseDups_of_nodup (Dict.keys_nodup _)).symm
  beneath := by simp
  size_le := Nat.le_refl _

theorem Hoisted.visitRoot (h : Hoisted t root scope g [] named s) :
    Hoisted t root scope g [.start root] named s where
  stamps := h.stamps.visitRoot
  walked := by
    intro v hv
    rw [List.mem_singleton.mp hv]
    exact .refl
  coherent v hv := Or.inl (List.mem_singleton.mp hv)
  block := by simp
  owned b hb := by
    refine h.owned b (Or.inl ?_)
    rcases hb with rfl | ⟨v, hv, rfl, -⟩
    · rfl
    · rw [List.mem_singleton.mp hv]
      rfl
  beneath := by simp
  size_le := h.size_le

/-! ## The visit of a child -/

/-- Recording a node leaves the scopes of the other nodes. -/
theorem scope?_link {node p b : NodeId} (hne : node ≠ b) :
    (link t node (some p) s).2.links.scope? b = s.links.scope? b := by
  rw [link_links, Links.scope?_setScope, if_neg hne, Links.scope?_setParent]

theorem scope?_link_self (node p : NodeId) : (link t node (some p) s).2.links.scope? node =
    some (if Tag.isBlock (t.tag node) then s.scopes.size else s.links.scopeOrRoot p) := by
  rw [link_links, Links.scope?_setScope, if_pos rfl]

theorem link_scopes (node p : NodeId) : (link t node (some p) s).2.scopes =
    if Tag.isBlock (t.tag node) then s.scopes.openBlock (s.links.scopeOrRoot p) node else s.scopes := by
  unfold link
  simp only
  split <;> rfl

theorem ne_of_scoped {node b : NodeId} (hroot : node ≠ root) (hnew : ∀ w ∈ done, w.node ≠ node)
    (hb : Scoped t root done b) : node ≠ b := by
  rintro rfl
  rcases hb with hb | ⟨v, hv, hb, -⟩
  · exact hroot hb
  · exact hnew v hv hb

/-- A scope that was there keeps its owner, its parent and its cells when a node is recorded. -/
theorem get_link (node p : NodeId) {own : ScopeId} (hown : own < s.scopes.size) :
    ((link t node (some p) s).2.scopes.get own).owner = (s.scopes.get own).owner ∧
      ((link t node (some p) s).2.scopes.get own).parent = (s.scopes.get own).parent ∧
      ((link t node (some p) s).2.scopes.get own).cells = (s.scopes.get own).cells := by
  rw [link_scopes]
  split
  · exact ScopeGraph.get_openBlock_old _ _ _ hown
  · exact ⟨rfl, rfl, rfl⟩

theorem size_link (node p : NodeId) : s.scopes.size ≤ (link t node (some p) s).2.scopes.size := by
  rw [link_scopes]
  split
  · rw [ScopeGraph.size_openBlock]
    exact Nat.le_succ _
  · exact Nat.le_refl _

/-- Names go to the root, to the block of the visit, or to a visited block itself. -/
theorem declared_target {v : Visit} {b : NodeId} {names : List String}
    (h : t.declared root v = some (b, names)) :
    b = root ∨ b = v.block ∨ b = v.node ∧ Tag.isBlock (t.tag v.node) = true := by
  unfold Tree.declared at h
  split at h
  · simp only [Option.some.injEq, Prod.mk.injEq] at h
    obtain ⟨rfl, -⟩ := h
    split
    · exact Or.inl rfl
    · exact Or.inr (Or.inl rfl)
  · cases h
    exact Or.inl rfl
  · cases h
    exact Or.inr (Or.inl rfl)
  · cases h
    exact Or.inr (Or.inl rfl)
  · cases h
    exact Or.inr (Or.inl rfl)
  · cases h
    exact Or.inr (Or.inl rfl)
  next htag =>
    split at h
    · split at h
      · obtain ⟨param, -, hparam⟩ := Option.map_eq_some_iff.mp h
        cases hparam
        exact Or.inr (Or.inr ⟨rfl, by rw [htag]; rfl⟩)
      · cases h
    · cases h
  next htag =>
    split at h
    · split at h
      · cases h
        exact Or.inr (Or.inr ⟨rfl, by rw [htag]; rfl⟩)
      · cases h
    · cases h
  · cases h

/-- Nothing is declared into a node before it is visited. -/
theorem Hoisted.declaredAt_new (h : Hoisted t root scope g done named s) {node : NodeId}
    (hroot : node ≠ root) (hnew : ∀ w ∈ done, w.node ≠ node) :
    done.flatMap (t.declaredAt root node) = [] := by
  rw [List.flatMap_eq_nil_iff]
  intro v hv
  rw [Tree.declaredAt]
  split
  next b names hb =>
    rw [if_neg]
    rintro rfl
    rcases declared_target hb with rfl | rfl | ⟨rfl, -⟩
    · exact hroot rfl
    · rcases h.coherent v hv with rfl | ⟨u, hu, -, -, hchild⟩
      · exact hroot rfl
      · have hparent : v.parent = some u.node := by rw [hchild, Visit.child_parent]
        exact ne_of_scoped hroot hnew (h.block v hv u.node hparent).1 rfl
    · exact hnew v hv rfl
  · rfl

theorem Hoisted.scoped_of_isScoped (h : Hoisted t root scope g done named s) {v : Visit} (hv : v ∈ done)
    (hscoped : v.isScoped t = true) : Scoped t root done v.node := by
  simp only [Visit.isScoped, Bool.or_eq_true] at hscoped
  rcases hscoped with hnone | hblock
  · rcases h.coherent v hv with rfl | ⟨u, -, -, -, hchild⟩
    · exact Or.inl rfl
    · rw [hchild, Visit.child_parent] at hnone
      cases hnone
  · exact Or.inr ⟨v, hv, rfl, hblock⟩

/-- A visit among those with a child's is one of the former, or the child's. -/
theorem forall_mem_child {P : Visit → Prop} {u : Visit} {node : NodeId} (hold : ∀ v ∈ done, P v)
    (hchild : P (u.child t node)) : ∀ v ∈ done ++ [u.child t node], P v := by
  intro v hv
  obtain hv | hv := List.mem_append.mp hv
  · exact hold v hv
  · rwa [List.mem_singleton.mp hv]

section Child

/-! A child is recorded after its parent: it has the scope of the parent, or a new one beneath that. -/

variable {u : Visit} {node : NodeId}

/-- The node of an earlier visit keeps its scope. -/
theorem scope?_link_of_mem (hnew : ∀ w ∈ done, w.node ≠ node) {v : Visit} (hv : v ∈ done) :
    (link t node (some u.node) s).2.links.scope? v.node = s.links.scope? v.node :=
  scope?_link (hnew v hv).symm

theorem Hoisted.coherent_child (h : Hoisted t root scope g done named s) (hu : u ∈ done)
    (hopens : t.Opens u.node node) (hroot : node ≠ root) :
    ∀ v ∈ done ++ [u.child t node], v = .start root ∨
      ∃ w ∈ done ++ [u.child t node], t.Opens w.node v.node ∧ v.node ≠ root ∧ v = w.child t v.node := by
  refine forall_mem_child (fun v hv => ?_) (Or.inr ⟨u, List.mem_append_left _ hu, hopens, hroot, rfl⟩)
  obtain rfl | ⟨w, hw, hrest⟩ := h.coherent v hv
  · exact Or.inl rfl
  · exact Or.inr ⟨w, List.mem_append_left _ hw, hrest⟩

/-- The block of a child is its parent, if that has a scope of its own, else the block of the parent. -/
theorem Hoisted.block_child (h : Hoisted t root scope g done named s) (hu : u ∈ done)
    (hopens : t.Opens u.node node) :
    Scoped t root done (u.child t node).block ∧ Tag.isClosed (t.tag (u.child t node).block) = false ∧
      s.links.scope? (u.child t node).block = s.links.scope? u.node := by
  cases hscoped : u.isScoped t with
  | true =>
    rw [Visit.child, if_pos hscoped]
    exact ⟨h.scoped_of_isScoped hu hscoped, hopens.1, rfl⟩
  | false =>
    rw [Visit.child, if_neg (by simp [hscoped])]
    simp only [Visit.isScoped, Bool.or_eq_false_iff] at hscoped
    obtain ⟨p, hp⟩ := Option.isSome_iff_exists.mp (Option.isNone_eq_false_iff.mp hscoped.1)
    obtain ⟨hb, hopen, hscope⟩ := h.block u hu p hp
    exact ⟨hb, hopen, by rw [hscope, h.stamps.inherited u hu p hp hscoped.2]⟩

theorem Hoisted.blocks_child (h : Hoisted t root scope g done named s) (hu : u ∈ done)
    (hopens : t.Opens u.node node) (hroot : node ≠ root) (hnew : ∀ w ∈ done, w.node ≠ node) :
    ∀ v ∈ done ++ [u.child t node], ∀ p, v.parent = some p →
      Scoped t root (done ++ [u.child t node]) v.block ∧ Tag.isClosed (t.tag v.block) = false ∧
        (link t node (some u.node) s).2.links.scope? v.block =
          (link t node (some u.node) s).2.links.scope? p := by
  have hkeep {b : NodeId} (hb : Scoped t root done b) :
      (link t node (some u.node) s).2.links.scope? b = s.links.scope? b :=
    scope?_link (ne_of_scoped hroot hnew hb)
  refine forall_mem_child (fun v hv p hp => ?_) fun p hp => ?_
  · obtain ⟨hscoped, hopen, hscope⟩ := h.block v hv p hp
    obtain ⟨w, hw, rfl⟩ := h.stamps.above v hv p hp
    exact ⟨hscoped.mono _, hopen, by rw [hkeep hscoped, scope?_link_of_mem hnew hw, hscope]⟩
  · obtain rfl : u.node = p := Option.some.inj hp
    obtain ⟨hscoped, hopen, hscope⟩ := h.block_child hu hopens
    exact ⟨hscoped.mono _, hopen, by rw [hkeep hscoped, scope?_link_of_mem hnew hu, hscope]⟩

/-- A child that is block-like owns a new scope, without names as yet; the others keep theirs. -/
theorem Hoisted.owned_child (h : Hoisted t root scope g done done s) (hroot : node ≠ root)
    (hnew : ∀ w ∈ done, w.node ≠ node) {b : NodeId} (hb : Scoped t root (done ++ [u.child t node]) b) :
    ∃ own, (link t node (some u.node) s).2.links.scope? b = some own ∧
      own < (link t node (some u.node) s).2.scopes.size ∧ (b ≠ root → g.size ≤ own) ∧
      ((link t node (some u.node) s).2.scopes.get own).owner = some b ∧
      ((link t node (some u.node) s).2.scopes.get own).cells.keys =
        (namesBefore g root scope b ++ done.flatMap (t.declaredAt root b)).eraseDups := by
  have hcases : b = node ∧ Tag.isBlock (t.tag node) = true ∨ Scoped t root done b := by
    obtain hb | ⟨v, hv, hnode, hblock⟩ := hb
    · exact Or.inr (Or.inl hb)
    · obtain hv | hv := List.mem_append.mp hv
      · exact Or.inr (Or.inr ⟨v, hv, hnode, hblock⟩)
      · obtain rfl : node = b := by rw [← hnode, List.mem_singleton.mp hv, Visit.child_node]
        exact Or.inl ⟨rfl, hblock⟩
  obtain ⟨rfl, hblock⟩ | hold := hcases
  · obtain ⟨howner, -, hcells⟩ := ScopeGraph.get_openBlock_new s.scopes (s.links.scopeOrRoot u.node) b
    rw [scope?_link_self, link_scopes, if_pos hblock, if_pos hblock, ScopeGraph.size_openBlock,
      namesBefore, if_neg hroot, h.declaredAt_new hroot hnew]
    refine ⟨_, rfl, Nat.lt_succ_self _, fun _ => h.size_le, howner, ?_⟩
    rw [hcells]
    rfl
  · obtain ⟨own, hscope, hsize, hfresh, howner, hnames⟩ := h.owned b hold
    obtain ⟨howner', -, hcells⟩ := get_link (t := t) node u.node hsize
    refine ⟨own, ?_, Nat.lt_of_lt_of_le hsize (size_link _ _), hfresh, ?_, ?_⟩
    · rw [scope?_link (ne_of_scoped hroot hnew hold), hscope]
    · rw [howner', howner]
    · rw [hcells, hnames]

theorem Hoisted.beneath_child (h : Hoisted t root scope g done named s) (hu : u ∈ done)
    (hnew : ∀ w ∈ done, w.node ≠ node) :
    ∀ v ∈ done ++ [u.child t node], ∀ p, v.parent = some p → Tag.isBlock (t.tag v.node) = true →
      ∃ own outer, (link t node (some u.node) s).2.links.scope? v.node = some own ∧
        (link t node (some u.node) s).2.links.scope? p = some outer ∧
        own < (link t node (some u.node) s).2.scopes.size ∧
        ((link t node (some u.node) s).2.scopes.get own).parent = some outer := by
  refine forall_mem_child (fun v hv p hp hblock => ?_) fun p hp hblock => ?_
  · obtain ⟨own, outer, hown, houter, hsize, hparent⟩ := h.beneath v hv p hp hblock
    obtain ⟨w, hw, rfl⟩ := h.stamps.above v hv p hp
    obtain ⟨-, hparent', -⟩ := get_link (t := t) node u.node hsize
    refine ⟨own, outer, ?_, ?_, Nat.lt_of_lt_of_le hsize (size_link _ _), ?_⟩
    · rw [scope?_link_of_mem hnew hv, hown]
    · rw [scope?_link_of_mem hnew hw, houter]
    · rw [hparent', hparent]
  · obtain rfl : u.node = p := Option.some.inj hp
    rw [Visit.child_node] at hblock ⊢
    obtain ⟨-, hparent, -⟩ := ScopeGraph.get_openBlock_new s.scopes (s.links.scopeOrRoot u.node) node
    rw [scope?_link_self, link_scopes, if_pos hblock, if_pos hblock, scope?_link_of_mem hnew hu,
      ScopeGraph.size_openBlock]
    exact ⟨_, _, rfl, h.stamps.scopeOrRoot hu, Nat.lt_succ_self _, hparent⟩

theorem Hoisted.visitChild (h : Hoisted t root scope g done done s) (hu : u ∈ done)
    (hopens : t.Opens u.node node) (hroot : node ≠ root) (hnew : ∀ w ∈ done, w.node ≠ node) :
    Hoisted t root scope g (done ++ [u.child t node]) done (link t node (some u.node) s).2 where
  stamps := link_stamps (.child u hu hopens hroot hnew) h.stamps
  walked := forall_mem_child h.walked ((h.walked u hu).tail hopens)
  coherent := h.coherent_child hu hopens hroot
  block := h.blocks_child hu hopens hroot hnew
  owned _ hb := h.owned_child hroot hnew hb
  beneath := h.beneath_child hu hnew
  size_le := Nat.le_trans h.size_le (size_link _ _)

end Child

/-! ## Where the rules find blocks and functions -/

theorem Hoisted.parent?_child (h : Hoisted t root scope g done named s) {u w : Visit} (hw : w ∈ done)
    (hchild : w = u.child t w.node) : s.links.parent? w.node = some u.node := by
  rw [h.stamps.parent_eq w hw, hchild, Visit.child_parent]

theorem Hoisted.lt_size (h : Hoisted t root scope g done named s) (ht : t.Proper)
    (hroot : root < t.size) {w : Visit} (hw : w ∈ done) : w.node < t.size :=
  Nat.lt_of_le_of_lt (ht.walked_le (h.walked w hw)) hroot

theorem Hoisted.isScoped_iff (h : Hoisted t root scope g done named s) {u : Visit} (hu : u ∈ done) :
    u.isScoped t = true ↔ u.node = root ∨ Tag.isBlock (t.tag u.node) = true := by
  rw [Visit.isScoped, Bool.or_eq_true]
  rcases h.coherent u hu with rfl | ⟨w, -, -, hne, hchild⟩
  · simp
  · rw [hchild, Visit.child_parent, Visit.child_node]
    simp [hne]

/-- Climbing to the nearest block finds the block of the visit. -/
theorem Hoisted.blockNodeWithin_eq (h : Hoisted t root scope g done named s) (ht : t.Proper)
    (hroot : root < t.size) {fuel : Nat} {w : Visit} (hw : w ∈ done) (hfuel : t.size ≤ fuel + w.node) :
    s.links.blockNodeWithin t fuel w.node = w.block := by
  induction fuel generalizing w with
  | zero =>
    rw [Nat.zero_add] at hfuel
    exact absurd (h.lt_size ht hroot hw) (Nat.not_lt.mpr hfuel)
  | succ fuel ih =>
    rw [Links.blockNodeWithin]
    rcases h.coherent w hw with hstart | ⟨u, hu, hopens, -, hchild⟩
    · rw [h.stamps.parent_eq w hw, hstart]
      rfl
    · rw [h.parent?_child hw hchild]
      have hblock : w.block = if u.isScoped t then u.node else u.block := by rw [hchild, Visit.child]
      have hrest : t.size ≤ fuel + u.node := by
        have hlt : w.node < u.node := ht.child_lt hopens.2
        simp only [NodeId] at *
        omega
      simp only [h.stamps.root_eq, Bool.or_eq_true, decide_eq_true_eq]
      by_cases hscoped : u.isScoped t = true
      · rw [hblock, if_pos hscoped, if_pos ((h.isScoped_iff hu).mp hscoped)]
      · rw [hblock, if_neg hscoped, if_neg fun hor => hscoped ((h.isScoped_iff hu).mpr hor)]
        exact ih hu hrest

/-- Climbing to the nearest function or class reaches the root if none of these lies below it. -/
theorem Hoisted.functionNodeWithin_eq (h : Hoisted t root scope g done named s) (ht : t.Proper)
    (hroot : root < t.size) {fuel : Nat} {w : Visit} (hw : w ∈ done) (hfuel : t.size ≤ fuel + w.node)
    (hfree : ∀ c, t.Walked root c → t.Walked c w.node → c ≠ root →
      Tag.isFunction (t.tag c) = false ∧ Tag.isClass (t.tag c) = false) :
    s.links.functionNodeWithin t fuel w.node = root := by
  induction fuel generalizing w with
  | zero =>
    rw [Nat.zero_add] at hfuel
    exact absurd (h.lt_size ht hroot hw) (Nat.not_lt.mpr hfuel)
  | succ fuel ih =>
    rw [Links.functionNodeWithin]
    simp only [h.stamps.root_eq]
    rcases h.coherent w hw with rfl | ⟨u, hu, hopens, hne, hchild⟩
    · simp
    · obtain ⟨hfunction, hclass⟩ := hfree w.node (h.walked w hw) .refl hne
      have hrest : t.size ≤ fuel + u.node := by
        have hlt : w.node < u.node := ht.child_lt hopens.2
        simp only [NodeId] at *
        omega
      rw [if_neg (by simp [hne, hfunction, hclass]), h.parent?_child hw hchild]
      exact ih hu hrest fun c hc hwalk => hfree c hc (hwalk.tail hopens)

/-- A visited node that is not block-like, or the root, has the scope of its block. -/
theorem Hoisted.scope?_block (h : Hoisted t root scope g done named s) {v : Visit} (hv : v ∈ done)
    (hplain : Tag.isBlock (t.tag v.node) = false) :
    Scoped t root done v.block ∧ s.links.scope? v.node = s.links.scope? v.block := by
  rcases h.coherent v hv with rfl | ⟨u, hu, -, -, hchild⟩
  · exact ⟨Or.inl rfl, rfl⟩
  · have hparent : v.parent = some u.node := by rw [hchild, Visit.child_parent]
    obtain ⟨hscoped, -, hscope⟩ := h.block v hv u.node hparent
    exact ⟨hscoped, by rw [hscope, h.stamps.inherited v hv u.node hparent hplain]⟩

/-- A function-scoped declaration rises to the root: of the nodes above the block that it stands in,
none is a function, which the walk would not have entered, nor a class, which holds no such block. -/
theorem Hoisted.functionScope_eq (h : Hoisted t root scope g done named s) (ht : t.Proper)
    (hroot : root < t.size) (hclasses : t.PlainClasses root) {v : Visit} (hv : v ∈ done)
    (hplain : Tag.isBlock (t.tag v.node) = false) :
    s.links.functionScope t s.scopes (s.links.scopeOrRoot v.node) = s.links.scopeOrRoot root := by
  obtain ⟨hscoped, hscope⟩ := h.scope?_block hv hplain
  obtain ⟨own, hown, -, -, howner, -⟩ := h.owned v.block hscoped
  have hvscope : s.links.scopeOrRoot v.node = own := by
    rw [Links.scopeOrRoot, hscope, hown]
    rfl
  have hcontains : s.links.contains v.block = true := by
    rw [Links.contains, hown]
    rfl
  have hclimb : s.links.functionNodeWithin t t.size v.block = root := by
    rcases h.coherent v hv with rfl | ⟨u, hu, -, -, hchild⟩
    · exact h.functionNodeWithin_eq ht hroot hv (Nat.le_add_right _ _) fun c hc hwalk hne =>
        absurd (Nat.le_antisymm (ht.walked_le hc) (ht.walked_le hwalk)) hne
    · have hparent : v.parent = some u.node := by rw [hchild, Visit.child_parent]
      obtain ⟨-, hopen, -⟩ := h.block v hv u.node hparent
      rcases hscoped with hbroot | ⟨w, hw, hnode, hblock⟩
      · rw [hbroot]
        cases hsize : t.size with
        | zero => rw [hsize] at hroot; exact absurd hroot (Nat.not_lt_zero _)
        | succ fuel => simp [Links.functionNodeWithin, h.stamps.root_eq]
      · rw [← hnode]
        refine h.functionNodeWithin_eq ht hroot hw (Nat.le_add_right _ _) fun c hc hwalk hne => ?_
        rw [hnode] at hwalk
        have hcopen : Tag.isClosed (t.tag c) = false := by
          rcases Relation.ReflTransGen.cases_head hwalk with rfl | ⟨_, hopens, -⟩
          · exact hopen
          · exact hopens.1
        constructor
        · simp only [Tag.isClosed, Bool.or_eq_false_iff] at hcopen
          exact hcopen.1
        · cases hclass : Tag.isClass (t.tag c) with
          | false => rfl
          | true =>
            have hbody := hclasses c v.block hc hclass hwalk hblock
            simp [hbody, Tag.isClosed] at hopen
  rw [Links.functionScope, hvscope, howner, Option.filter_some, if_pos hcontains]
  simp only [hclimb]

theorem Hoisted.blockNode_eq (h : Hoisted t root scope g done named s) (ht : t.Proper)
    (hroot : root < t.size) {v : Visit} (hv : v ∈ done) : s.links.blockNode t v.node = v.block :=
  h.blockNodeWithin_eq ht hroot hv (Nat.le_add_right _ _)

theorem Hoisted.scopeOrRoot_block (h : Hoisted t root scope g done named s) {v : Visit} (hv : v ∈ done)
    (hplain : Tag.isBlock (t.tag v.node) = false) :
    s.links.scopeOrRoot v.node = s.links.scopeOrRoot v.block := by
  rw [Links.scopeOrRoot, Links.scopeOrRoot, (h.scope?_block hv hplain).2]

/-- What the kind of a visited node declares, the rule for its tag declares. -/
theorem Hoisted.rule_scopes (h : Hoisted t root scope g done named s) (ht : t.Proper)
    (hroot : root < t.size) (hclasses : t.PlainClasses root) (host : HostRules) {v : Visit}
    (hv : v ∈ done) {rule : Rule} (hrule : defaultRules.rule? (t.tag v.node) = some rule) :
    (rule.meaning host t v.node v.parent s).2.scopes =
      match t.declared root v with
      | some (b, names) => s.scopes.declareNew (s.links.scopeOrRoot b) names
      | none => s.scopes := by
  have hmem := mem_tagRules hrule
  simp only [tagRules, List.mem_cons, Prod.mk.injEq, List.not_mem_nil, or_false] at hmem
  have hblockNode := h.blockNode_eq ht hroot hv
  have hfunction := h.functionScope_eq ht hroot hclasses hv
  have hown := h.scopeOrRoot_block hv
  have himport : Tag.isBlock (t.tag v.node) = false →
      (Rule.importSpecifier.meaning host t v.node v.parent s).2.scopes =
        s.scopes.declareNew (s.links.scopeOrRoot v.block) (nameIn t v.node "local") := by
    intro hplain
    rw [← hown hplain]
    rfl
  simp only [nameIn] at himport
  rcases hmem with ⟨htag, rfl⟩ | ⟨htag, rfl⟩ | ⟨htag, rfl⟩ | ⟨htag, rfl⟩ | ⟨htag, rfl⟩ |
    ⟨htag, rfl⟩ | ⟨htag, rfl⟩ | ⟨htag, rfl⟩ | ⟨htag, rfl⟩ | ⟨htag, rfl⟩
  all_goals rw [htag] at hfunction himport
  · simp only [Tree.declared, htag, Rule.meaning, variableDeclarator, State.declare,
      ScopeGraph.declareNew]
    rw [hfunction rfl, hblockNode]
    split <;> rfl
  · simp only [Tree.declared, htag, Rule.meaning, functionDeclaration, State.declare,
      ScopeGraph.declareNew, nameIn]
    rw [hfunction rfl]
  · simp [Tree.declared, htag, Rule.meaning]
  · simp [Tree.declared, htag, Rule.meaning]
  · simp only [Tree.declared, htag, Rule.meaning, classDeclaration, State.declare,
      ScopeGraph.declareNew, nameIn]
    rw [hblockNode]
  · simp only [Tree.declared, htag, Rule.meaning, Hoist.classBody, nameIn]
    cases hparent : v.parent with
    | none => rfl
    | some p =>
      simp only
      by_cases hclass : t.is p "ClassExpression" = true
      · simp only [if_pos hclass]
        cases ((t.child? p "id").bind t.identifierName?).toList <;> rfl
      · simp only [if_neg hclass]
  · simp only [Tree.declared, htag, Rule.meaning, Hoist.catchBlock]
    cases hparent : v.parent with
    | none => rfl
    | some clause =>
      simp only
      by_cases hclause : t.is clause "CatchClause" = true
      · simp only [if_pos hclause]
        cases t.child? clause "param" <;> rfl
      · simp only [if_neg hclause]
  · simp only [Tree.declared, htag]
    exact himport rfl
  · simp only [Tree.declared, htag]
    exact himport rfl
  · simp only [Tree.declared, htag]
    exact himport rfl

/-- A kind without a rule declares nothing. -/
theorem declared_eq_none {v : Visit} (hrule : defaultRules.rule? (t.tag v.node) = none) :
    t.declared root v = none := by
  have htag := not_mem_tagRules hrule
  simp only [tagRules, List.map_cons, List.map_nil, List.mem_cons, not_or] at htag
  unfold Tree.declared
  split <;> simp_all

theorem Hoisted.scoped_target (h : Hoisted t root scope g done named s) {v : Visit} (hv : v ∈ done)
    {b : NodeId} {names : List String} (hdeclared : t.declared root v = some (b, names)) :
    Scoped t root done b := by
  rcases declared_target hdeclared with rfl | rfl | ⟨rfl, hblock⟩
  · exact Or.inl rfl
  · rcases h.coherent v hv with rfl | ⟨u, -, -, -, hchild⟩
    · exact Or.inl rfl
    · have hparent : v.parent = some u.node := by rw [hchild, Visit.child_parent]
      exact (h.block v hv u.node hparent).1
  · exact Or.inr ⟨v, hv, rfl, hblock⟩

/-- Declaring the names of a visit adds them to one scope, that of the node they go to, and changes
nothing else. -/
theorem Hoisted.declare_effect (h : Hoisted t root scope g done named s) {v : Visit} (hv : v ∈ done)
    {g' : ScopeGraph} (hg' : g' = match t.declared root v with
      | some (b, names) => s.scopes.declareNew (s.links.scopeOrRoot b) names
      | none => s.scopes) :
    g'.size = s.scopes.size ∧
      (∀ own, (g'.get own).owner = (s.scopes.get own).owner ∧
        (g'.get own).parent = (s.scopes.get own).parent) ∧
      ∀ b own before, Scoped t root done b → s.links.scope? b = some own →
        (s.scopes.get own).cells.keys = before.eraseDups →
          (g'.get own).cells.keys = (before ++ t.declaredAt root b v).eraseDups := by
  cases hdeclared : t.declared root v with
  | none =>
    rw [hdeclared] at hg'
    simp only at hg'
    subst hg'
    refine ⟨rfl, fun _ => ⟨rfl, rfl⟩, fun b own before _ _ hkeys => ?_⟩
    rw [Tree.declaredAt, hdeclared, List.append_nil, hkeys]
  | some d =>
    obtain ⟨target, names⟩ := d
    rw [hdeclared] at hg'
    simp only at hg'
    subst hg'
    obtain ⟨owned, hscope, hsize, -, howner, -⟩ := h.owned target (h.scoped_target hv hdeclared)
    have heq : s.links.scopeOrRoot target = owned := by
      rw [Links.scopeOrRoot, hscope]
      rfl
    rw [heq]
    have hsame := s.scopes.sameBut_declareNew owned names
    refine ⟨hsame.size_eq, fun own => ?_, fun b own before hb hbscope hkeys => ?_⟩
    · by_cases hown : own = owned
      · subst hown
        exact ⟨hsame.owner_eq, hsame.parent_eq⟩
      · rw [hsame.get_eq own hown]
        exact ⟨rfl, rfl⟩
    · simp only [Tree.declaredAt, hdeclared]
      by_cases htarget : target = b
      · subst htarget
        rw [hscope] at hbscope
        cases hbscope
        rw [if_pos rfl]
        exact ScopeGraph.keys_declareNew hsize names hkeys
      · have hne : own ≠ owned := by
          rintro rfl
          obtain ⟨own', hscope', -, -, howner', -⟩ := h.owned b hb
          rw [hscope'] at hbscope
          cases hbscope
          rw [howner'] at howner
          cases howner
          exact htarget rfl
        rw [if_neg htarget, List.append_nil, hsame.get_eq own hne, hkeys]

/-- Once the names of a visit are declared where they belong, they count as named. -/
theorem Hoisted.declare (h : Hoisted t root scope g done named s) {v : Visit} (hv : v ∈ done)
    {s' : State} (hlinks : s'.links = s.links ∨ ∃ target, s'.links = s.links.setTarget v.node target)
    (hscopes : s'.scopes = match t.declared root v with
      | some (b, names) => s.scopes.declareNew (s.links.scopeOrRoot b) names
      | none => s.scopes) :
    Hoisted t root scope g done (named ++ [v]) s' := by
  have hscope (n : NodeId) : s'.links.scope? n = s.links.scope? n := by
    rcases hlinks with hl | ⟨target, hl⟩ <;> rw [hl]
    rfl
  have hstamps : s'.links.Stamps t root scope done := by
    rcases hlinks with hl | ⟨target, hl⟩ <;> rw [hl]
    · exact h.stamps
    · exact h.stamps.setTarget v.node target
  obtain ⟨hsize, hget, hkeys⟩ := h.declare_effect hv hscopes
  exact {
    stamps := hstamps
    walked := h.walked
    coherent := h.coherent
    block := fun w hw p hp => by
      rw [hscope, hscope]
      exact h.block w hw p hp
    owned := fun b hb => by
      obtain ⟨own, hown, hlt, hfresh, howner, hnames⟩ := h.owned b hb
      refine ⟨own, by rw [hscope, hown], by rw [hsize]; exact hlt, hfresh, by rw [(hget own).1, howner], ?_⟩
      rw [hkeys b own _ hb hown hnames, List.flatMap_append, List.flatMap_singleton, List.append_assoc]
    beneath := fun w hw p hp hblock => by
      obtain ⟨own, outer, hown, houter, hlt, hparent⟩ := h.beneath w hw p hp hblock
      refine ⟨own, outer, by rw [hscope, hown], by rw [hscope, houter], by rw [hsize]; exact hlt, ?_⟩
      rw [(hget own).2, hparent]
    size_le := by
      rw [hsize]
      exact h.size_le }

/-- A visit keeps the record: its place is recorded, then its names are declared. -/
theorem Hoisted.step (h : Hoisted t root scope g done done s) (ht : t.Proper) (hroot : root < t.size)
    (hclasses : t.PlainClasses root) (host : HostRules) {v : Visit} (hv : t.NextVisit root done v) :
    Hoisted t root scope g (done ++ [v]) (done ++ [v]) (Hoist.step host t s v) := by
  have hlinked : Hoisted t root scope g (done ++ [v]) done (link t v.node v.parent s).2 := by
    cases hv with
    | root hdone =>
      subst hdone
      exact h.visitRoot
    | child u hu hopens hne hnew => exact h.visitChild hu hopens hne hnew
  have hmem : v ∈ done ++ [v] := by simp
  rw [step_eq]
  split
  next rule hrule =>
    have hlink : rule ≠ .link := by
      rintro rfl
      exact defaultRules_ne_link hrule
    exact hlinked.declare hmem
      (Rule.links_eq host (defaultRules_ne_host (Or.inr ⟨_, hrule⟩)) hlink v.node v.parent)
      (hlinked.rule_scopes ht hroot hclasses host hmem hrule)
  next hrule =>
    refine hlinked.declare hmem (Or.inl rfl) ?_
    rw [declared_eq_none hrule]

end Hoist

/-! ## The resolution of a whole tree -/

/-- The declarative hoisting of a tree against the scope `scope` of `g`. -/
structure Tree.HoistedInto (t : Tree) (g : ScopeGraph) (scope : ScopeId) (s : Hoist.State) : Prop where
  /-- what is visited is what is walked to: nothing in functions and class bodies -/
  visited : ∀ n, s.links.contains n = true ↔ t.Walked t.root n
  root_scope : s.links.scope? t.root = some scope
  /-- a block-like node below the root owns a new scope, beneath that of its parent -/
  opened : ∀ v ∈ t.visits t.root, ∀ p, v.parent = some p → Tag.isBlock (t.tag v.node) = true →
    ∃ own outer, s.links.scope? v.node = some own ∧ s.links.scope? p = some outer ∧ g.size ≤ own ∧
      (s.scopes.get own).owner = some v.node ∧ (s.scopes.get own).parent = some outer
  /-- any other node below the root has the scope of its parent -/
  inherited : ∀ v ∈ t.visits t.root, ∀ p, v.parent = some p → Tag.isBlock (t.tag v.node) = false →
    s.links.scope? v.node = s.links.scope? p
  /-- the root scope has the names it had, followed by those declared into it -/
  root_names : (s.scopes.get scope).cells.keys =
    ((g.get scope).cells.keys ++ t.declaredInto t.root t.root).eraseDups
  /-- a new scope has the names declared into it -/
  names : ∀ v ∈ t.visits t.root, v.node ≠ t.root → Tag.isBlock (t.tag v.node) = true →
    ∀ own, s.links.scope? v.node = some own →
      (s.scopes.get own).cells.keys = (t.declaredInto t.root v.node).eraseDups

/-- **Resolving names computes the declarative hoisting**: for every imported tree and every scope that
belongs to no node yet. -/
theorem Resolver.resolve_hoisted (r : Resolver) (hr : r.rules = Hoist.defaultRules) (j : Json) (t : Tree)
    (ht : Tree.ofJson j = .ok t) (hclasses : t.PlainClasses t.root) (g : ScopeGraph) (scope : ScopeId)
    (hscope : scope < g.size) (howner : (g.get scope).owner = none) :
    ∃ s, r.resolve t scope g = .ok s ∧ t.HoistedInto g scope s := by
  have hproper := Tree.ofJson_proper ht
  have hroot := hproper.root_lt
  have hsize : (g.setOwner scope (some t.root)).size = g.size := ScopeGraph.size_modify _ _ _
  have hget : (g.setOwner scope (some t.root)).get scope =
      { g.get scope with owner := some t.root } := by
    rw [ScopeGraph.setOwner, ScopeGraph.get_modify, if_pos ⟨rfl, hscope⟩]
  have hstart : Hoist.Hoisted t t.root scope (g.setOwner scope (some t.root)) [] []
      ⟨.start t.root scope, g.setOwner scope (some t.root)⟩ :=
    Hoist.hoisted_start (by rw [hsize]; exact hscope) (by rw [hget])
  have hend := hproper.foldl_visits t.root
    (fun done s => Hoist.Hoisted t t.root scope (g.setOwner scope (some t.root)) done done s)
    (Hoist.step r.host t) hstart fun _ _ _ hv h => h.step hproper hroot hclasses r.host hv
  rw [← run_eq_foldl hr] at hend
  have hstamped := run_stamped hr hproper hroot scope (g.setOwner scope (some t.root))
  refine ⟨_, by rw [resolve, howner], hstamped.contains_iff, hstamped.root_scope, ?_,
    hend.stamps.inherited, ?_, ?_⟩
  · intro v hv p hp hblock
    obtain ⟨own, outer, hown, houter, -, hparent⟩ := hend.beneath v hv p hp hblock
    obtain ⟨own', hown', -, hfresh, howned, -⟩ := hend.owned v.node (Or.inr ⟨v, hv, rfl, hblock⟩)
    rw [hown] at hown'
    cases hown'
    have hne : v.node ≠ t.root := by
      rcases hend.coherent v hv with rfl | ⟨u, -, -, hne, -⟩
      · cases hp
      · exact hne
    have hle := hfresh hne
    rw [hsize] at hle
    exact ⟨own, outer, hown, houter, hle, howned, hparent⟩
  · obtain ⟨own, hown, -, -, -, hnames⟩ := hend.owned t.root (Or.inl rfl)
    rw [hstamped.root_scope] at hown
    cases hown
    rw [hnames, Hoist.namesBefore, if_pos rfl, hget]
    rfl
  · intro v hv hne hblock own hown
    obtain ⟨own', hown', -, -, -, hnames⟩ := hend.owned v.node (Or.inr ⟨v, hv, rfl, hblock⟩)
    rw [hown] at hown'
    cases hown'
    rw [hnames, Hoist.namesBefore, if_neg hne]
    rfl

theorem Tree.plainClasses_of_all {t : Tree}
    (h : (t.nodes.all fun n => !Tag.isClass n.tag) = true) (root : NodeId) : t.PlainClasses root := by
  intro c b _ hclass
  cases hc : t.nodes[c]? with
  | none =>
    have htag : t.tag c = "" := by simp [tag, node, hc]
    rw [htag] at hclass
    exact absurd hclass (by decide)
  | some n =>
    have htag : t.tag c = n.tag := by simp [tag, node, hc]
    rw [Array.all_eq_true] at h
    obtain ⟨hlt, hn⟩ := Array.getElem?_eq_some_iff.mp hc
    have hplain := h c hlt
    rw [hn] at hplain
    rw [htag] at hclass
    simp [hclass] at hplain

/-- `{ let a; var b }` as a program. -/
def blockProgram : Json :=
  let declaration (kind name : String) : Json :=
    .object [("type", .string "VariableDeclaration"), ("kind", .string kind),
      ("declarations", .array [.object [("type", .string "VariableDeclarator"),
        ("id", .object [("type", .string "Identifier"), ("name", .string name)])]])]
  .object [("type", .string "Program"),
    ("body", .array [.object [("type", .string "BlockStatement"),
      ("body", .array [declaration "let" "a", declaration "var" "b"])]])]

theorem resolve_hoisted_block : ∃ t s, Tree.ofJson blockProgram = .ok t ∧
    Resolver.resolve {} t 0 (ScopeGraph.addRoot {} none).2 = .ok s ∧
    (s.scopes.get 0).cells.keys = ["b"] := by
  obtain ⟨t, ht, hcheck⟩ := Tree.exists_ofJson (j := blockProgram)
    (p := fun t => (t.nodes.all fun n => !Tag.isClass n.tag) && t.declaredInto t.root t.root == ["b"])
    (by decide +kernel)
  simp only [Bool.and_eq_true, beq_iff_eq] at hcheck
  have hclasses := Tree.plainClasses_of_all hcheck.1 t.root
  obtain ⟨s, hs, hhoisted⟩ := Resolver.resolve_hoisted {} rfl blockProgram t ht hclasses
    (ScopeGraph.addRoot {} none).2 0 (by decide) rfl
  refine ⟨t, s, ht, hs, ?_⟩
  rw [hhoisted.root_names, hcheck.2]
  rfl

/-! ## Classes without a class body -/

/-- `{ class { var x } }` as a program, with a block in place of the class body. -/
def classBlockProgram : Json :=
  let block (statement : Json) : Json := .object [("type", .string "BlockStatement"), ("body", .array [statement])]
  let declaration : Json :=
    .object [("type", .string "VariableDeclaration"), ("kind", .string "var"),
      ("declarations", .array [.object [("type", .string "VariableDeclarator"),
        ("id", .object [("type", .string "Identifier"), ("name", .string "x")])]])]
  .object [("type", .string "Program"), ("body", .array [block
    (.object [("type", .string "ClassDeclaration"), ("id", .null), ("superClass", .null),
      ("body", block declaration)])])]

/-- Whether a class has neither a name nor a superclass. -/
def Tree.isBareClass (t : Tree) (n : NodeId) : Bool :=
  !Tag.isClass (t.tag n) || (t.child? n "id").isNone && (t.child? n "superClass").isNone

/-- Nothing is hoisted past a class: a `var` in such a block goes to the block around the class. -/
theorem not_hoisted_past_class : ∃ t s, Tree.ofJson classBlockProgram = .ok t ∧
    (∀ n < t.size, t.isBareClass n = true) ∧
    Resolver.resolve {} t 0 (ScopeGraph.addRoot {} none).2 = .ok s ∧
    ¬ t.HoistedInto (ScopeGraph.addRoot {} none).2 0 s := by
  obtain ⟨t, ht, hcheck⟩ := Tree.exists_ofJson (j := classBlockProgram)
    (p := fun t => (List.range t.size).all t.isBareClass && t.declaredInto t.root t.root == ["x"] &&
      match Resolver.resolve {} t 0 (ScopeGraph.addRoot {} none).2 with
      | .ok s => (s.scopes.get 0).cells.keys == []
      | .error _ => false)
    (by decide +kernel)
  simp only [Bool.and_eq_true, beq_iff_eq, List.all_eq_true, List.mem_range] at hcheck
  obtain ⟨⟨hbare, hdeclared⟩, hresolved⟩ := hcheck
  split at hresolved
  next s hs =>
    refine ⟨t, s, ht, hbare, hs, fun h => ?_⟩
    have hnames := h.root_names
    rw [hdeclared, eq_of_beq hresolved] at hnames
    cases hnames
  · cases hresolved

end ScriptCore

import ScriptCore.Proofs.Hoist.Inside
import ScriptCore.Proofs.Tree.Proper

/-!
# The order of visits

A resolution visits nodes in pre-order and leaves alone what functions and class bodies hold. `Visit`
says how a node is come upon, `Tree.visits` lists all visits in their order, and a resolution under the
default rules is a fold over that list (`Resolver.run_eq_foldl`). On a tree that hangs together each
node below the root is visited once, after its parent.
-/
namespace ScriptCore

/-- The kinds whose children a resolution leaves alone: functions, resolved at each call, and class
bodies. -/
def Tag.isClosed (tag : String) : Bool := Tag.isFunction tag || tag = "ClassBody"

/-- A node as a walk comes upon it: through which parent, if any, and under which block, the nearest
node above it that is block-like or the root of the walk. The root counts as its own block. -/
structure Visit where
  node : NodeId
  parent : Option NodeId
  block : NodeId
  deriving DecidableEq, Repr

namespace Visit

/-- The visit of the root of a walk. -/
def start (root : NodeId) : Visit := ⟨root, none, root⟩

/-- Whether a visited node has a scope of its own, as the root and block-like nodes have. -/
def isScoped (t : Tree) (v : Visit) : Bool := v.parent.isNone || Tag.isBlock (t.tag v.node)

/-- The visit of a child. -/
def child (t : Tree) (v : Visit) (node : NodeId) : Visit :=
  ⟨node, some v.node, if v.isScoped t then v.node else v.block⟩

@[simp] theorem child_node (t : Tree) (v : Visit) (node : NodeId) : (v.child t node).node = node := rfl

@[simp] theorem child_parent (t : Tree) (v : Visit) (node : NodeId) :
    (v.child t node).parent = some v.node := rfl

@[simp] theorem start_node (root : NodeId) : (start root).node = root := rfl

@[simp] theorem start_parent (root : NodeId) : (start root).parent = none := rfl

end Visit

namespace Tree

variable (t : Tree)

/-- From a visited node down, the children that are visited through it. -/
def Opens (node child : NodeId) : Prop :=
  Tag.isClosed (t.tag node) = false ∧ child ∈ t.childNodes node

/-- From a root, the nodes that are visited. -/
def Walked (root node : NodeId) : Prop := Relation.ReflTransGen t.Opens root node

/-- A visit and those below it, down to the given number of levels, in order. -/
def visitsWithin : Nat → Visit → List Visit
  | 0, _ => []
  | levels + 1, v =>
    v :: if Tag.isClosed (t.tag v.node) then []
      else (t.childNodes v.node).flatMap fun child => visitsWithin levels (v.child t child)

/-- The visits of a resolution from a root, in order. -/
def visits (root : NodeId) : List Visit := t.visitsWithin t.size (.start root)

variable {t}

theorem walked_of_mem_visitsWithin {levels : Nat} {v w : Visit} (h : w ∈ t.visitsWithin levels v) :
    t.Walked v.node w.node := by
  induction levels generalizing v with
  | zero => simp [visitsWithin] at h
  | succ levels ih =>
    rw [visitsWithin, List.mem_cons] at h
    rcases h with rfl | h
    · exact .refl
    · split at h
      · simp at h
      next hopen =>
        obtain ⟨child, hchild, hw⟩ := List.mem_flatMap.mp h
        have hopens : t.Opens v.node child := ⟨by simpa using hopen, hchild⟩
        exact (ih hw).head hopens

theorem Walked.below {root node : NodeId} (h : t.Walked root node) : t.Below root node := by
  induction h with
  | refl => exact .refl
  | tail _ hopens ih => exact ih.tail (childNodes_subset_held _ hopens.2)

/-- On a tree that hangs together, what is walked to has a smaller id. -/
theorem Proper.walked_le (ht : t.Proper) {root node : NodeId} (h : t.Walked root node) :
    node ≤ root := ht.below_le h.below

/-- No node is visited twice. -/
theorem Proper.visits_nodup (ht : t.Proper) (levels : Nat) (v : Visit) :
    ((t.visitsWithin levels v).map Visit.node).Nodup := by
  induction levels generalizing v with
  | zero => simp [visitsWithin]
  | succ levels ih =>
    rw [visitsWithin, List.map_cons, List.nodup_cons]
    split
    · simp
    · rw [List.map_flatMap]
      refine ⟨?_, List.nodup_flatMap.mpr ⟨fun child _ => ih _, ?_⟩⟩
      · intro hmem
        obtain ⟨child, hchild, hmem⟩ := List.mem_flatMap.mp hmem
        obtain ⟨w, hw, hnode⟩ := List.mem_map.mp hmem
        have hle := ht.walked_le (walked_of_mem_visitsWithin hw)
        rw [hnode] at hle
        exact Nat.not_lt.mpr hle (ht.child_lt hchild)
      · refine (ht.childNodes_nodup v.node).imp_of_mem fun {a b} ha hb hne => ?_
        intro node hna hnb
        obtain ⟨wa, hwa, rfl⟩ := List.mem_map.mp hna
        obtain ⟨wb, hwb, hnode⟩ := List.mem_map.mp hnb
        have hbelow := (walked_of_mem_visitsWithin hwb).below
        rw [hnode] at hbelow
        exact ht.not_below_siblings (childNodes_subset_held _ ha) (childNodes_subset_held _ hb) hne
          (walked_of_mem_visitsWithin hwa).below hbelow

/-- Every node that is walked to is visited, if there are levels enough. -/
theorem Proper.exists_visit (ht : t.Proper) {levels : Nat} {v : Visit} (hlevels : v.node < levels)
    {node : NodeId} (h : t.Walked v.node node) : ∃ w ∈ t.visitsWithin levels v, w.node = node := by
  induction levels generalizing v with
  | zero => exact absurd hlevels (Nat.not_lt_zero _)
  | succ levels ih =>
    rw [visitsWithin]
    rcases Relation.ReflTransGen.cases_head h with rfl | ⟨child, ⟨hopen, hchild⟩, hwalk⟩
    · exact ⟨v, List.mem_cons_self, rfl⟩
    · have hlt : child < levels := Nat.lt_of_lt_of_le (ht.child_lt hchild) (Nat.le_of_lt_succ hlevels)
      obtain ⟨w, hw, hnode⟩ := ih (v := v.child t child) hlt hwalk
      rw [if_neg (by simp [hopen])]
      exact ⟨w, List.mem_cons_of_mem _ (List.mem_flatMap.mpr ⟨child, hchild, hw⟩), hnode⟩

theorem Proper.walked_iff_visited (ht : t.Proper) {root node : NodeId} (hroot : root < t.size) :
    t.Walked root node ↔ ∃ v ∈ t.visits root, v.node = node := by
  constructor
  · exact fun h => ht.exists_visit (v := .start root) hroot h
  · rintro ⟨v, hv, rfl⟩
    exact walked_of_mem_visitsWithin hv

/-! ## Parents come first -/

/-- What stands at a place of a list that is put together from parts stands at a place of one part. -/
theorem split_flatMap {α β : Type} {l : List α} {f : α → List β} {before after : List β} {x : β}
    (h : l.flatMap f = before ++ x :: after) :
    ∃ a ∈ l, ∃ earlier front back, f a = front ++ x :: back ∧ before = earlier ++ front := by
  induction l generalizing before with
  | nil => simp at h
  | cons a rest ih =>
    rw [List.flatMap_cons, List.append_eq_append_iff] at h
    rcases h with ⟨front, hbefore, hrest⟩ | ⟨back, ha, hx⟩
    · obtain ⟨b, hb, earlier, front', back, hf, hfront⟩ := ih hrest
      refine ⟨b, List.mem_cons_of_mem _ hb, f a ++ earlier, front', back, hf, ?_⟩
      rw [hbefore, hfront, List.append_assoc]
    · cases back with
      | nil =>
        have hrest : rest.flatMap f = [] ++ x :: after := by simpa using hx.symm
        obtain ⟨b, hb, earlier, front, back, hf, hfront⟩ := ih hrest
        refine ⟨b, List.mem_cons_of_mem _ hb, f a ++ earlier, front, back, hf, ?_⟩
        rw [List.append_assoc, ← hfront]
        simpa using ha.symm
      | cons y back =>
        simp only [List.cons_append, List.cons.injEq] at hx
        obtain ⟨rfl, -⟩ := hx
        exact ⟨a, List.mem_cons_self, [], before, back, ha, rfl⟩

/-- A visit is that of the root, or one of a child of a node visited before. -/
theorem visit_after_parent {levels : Nat} {v w : Visit} {before after : List Visit}
    (h : t.visitsWithin levels v = before ++ w :: after) :
    (before = [] ∧ w = v) ∨
      ∃ u ∈ before, t.Opens u.node w.node ∧ w = u.child t w.node := by
  induction levels generalizing v before after with
  | zero => simp [visitsWithin] at h
  | succ levels ih =>
    rw [visitsWithin] at h
    cases before with
    | nil =>
      simp only [List.nil_append, List.cons.injEq] at h
      exact Or.inl ⟨rfl, h.1.symm⟩
    | cons first before =>
      simp only [List.cons_append, List.cons.injEq] at h
      obtain ⟨rfl, h⟩ := h
      right
      split at h
      · simp at h
      next hopen =>
        obtain ⟨child, hchild, earlier, front, back, hf, hbefore⟩ := split_flatMap h
        rcases ih hf with ⟨-, rfl⟩ | ⟨u, hu, hopens, hw⟩
        · exact ⟨v, List.mem_cons_self, ⟨by simpa using hopen, hchild⟩, rfl⟩
        · refine ⟨u, List.mem_cons_of_mem _ ?_, hopens, hw⟩
          rw [hbefore]
          exact List.mem_append_right _ hu

/-- How the next visit of a walk relates to those before it: it is that of the root, and the first, or
it is that of a child of a node visited before, and new. -/
inductive NextVisit (t : Tree) (root : NodeId) (done : List Visit) : Visit → Prop
  | root (hdone : done = []) : NextVisit t root done (.start root)
  | child (u : Visit) (hu : u ∈ done) {node : NodeId} (hopens : t.Opens u.node node)
    (hroot : node ≠ root) (hnew : ∀ w ∈ done, w.node ≠ node) : NextVisit t root done (u.child t node)

theorem Proper.nextVisit (ht : t.Proper) {root : NodeId} {done rest : List Visit} {v : Visit}
    (h : t.visits root = done ++ v :: rest) : t.NextVisit root done v := by
  rcases visit_after_parent h with ⟨hdone, rfl⟩ | ⟨u, hu, hopens, hv⟩
  · exact .root hdone
  · have hnodup := ht.visits_nodup t.size (.start root)
    rw [← visits, h, List.map_append, List.nodup_append'] at hnodup
    have hnew : ∀ w ∈ done, w.node ≠ v.node := by
      intro w hw hnode
      exact hnodup.2.2 (List.mem_map.mpr ⟨w, hw, hnode⟩) (by simp)
    have hroot : v.node ≠ root := by
      have hmem : u ∈ t.visits root := by
        rw [h]
        exact List.mem_append_left _ hu
      have hle := ht.walked_le (walked_of_mem_visitsWithin hmem)
      exact Nat.ne_of_lt (Nat.lt_of_lt_of_le (ht.child_lt hopens.2) hle)
    rw [hv]
    exact .child u hu hopens hroot hnew

theorem eq_start_or_child {root : NodeId} {v : Visit} (h : v ∈ t.visits root) :
    v = .start root ∨ ∃ u ∈ t.visits root, t.Opens u.node v.node ∧ v = u.child t v.node := by
  obtain ⟨before, after, hsplit⟩ := List.append_of_mem h
  rcases visit_after_parent hsplit with ⟨-, rfl⟩ | ⟨u, hu, hopens, hv⟩
  · exact Or.inl rfl
  · refine Or.inr ⟨u, ?_, hopens, hv⟩
    rw [hsplit]
    exact List.mem_append_left _ hu

/-- The visit of a node that is opened through a parent. -/
theorem Proper.exists_visit_child (ht : t.Proper) {root p n : NodeId} (hroot : root < t.size)
    (hp : t.Walked root p) (hopens : t.Opens p n) :
    ∃ v ∈ t.visits root, v.node = n ∧ v.parent = some p := by
  obtain ⟨v, hv, rfl⟩ := (ht.walked_iff_visited hroot).mp (hp.tail hopens)
  rcases eq_start_or_child hv with hstart | ⟨u, -, hopens', hchild⟩
  · rw [hstart] at hopens
    exact absurd (ht.walked_le hp) (Nat.not_le.mpr (ht.child_lt hopens.2))
  · have hparent := ht.unique_parent (childNodes_subset_held _ hopens'.2)
      (childNodes_subset_held _ hopens.2)
    refine ⟨v, hv, rfl, ?_⟩
    rw [hchild, Visit.child_parent, hparent]

theorem mem_visits_start {root : NodeId} (h : root < t.size) : Visit.start root ∈ t.visits root := by
  rw [visits]
  cases hsize : t.size with
  | zero => rw [hsize] at h; exact absurd h (Nat.not_lt_zero _)
  | succ levels => exact List.mem_cons_self

/-- What each visit preserves holds after all of them. -/
theorem Proper.foldl_visits (ht : t.Proper) (root : NodeId) {σ : Type} (I : List Visit → σ → Prop)
    (f : σ → Visit → σ) {s : σ} (hstart : I [] s)
    (hstep : ∀ done v s, t.NextVisit root done v → I done s → I (done ++ [v]) (f s v)) :
    I (t.visits root) ((t.visits root).foldl f s) := by
  have hrest : ∀ (rest done : List Visit) (s : σ), t.visits root = done ++ rest → I done s →
      I (t.visits root) (rest.foldl f s) := by
    intro rest
    induction rest with
    | nil =>
      intro done s hsplit hs
      rw [hsplit, List.append_nil]
      exact hs
    | cons v rest ih =>
      intro done s hsplit hs
      exact ih (done ++ [v]) (f s v) (by simp [hsplit]) (hstep done v s (ht.nextVisit hsplit) hs)
  exact hrest _ [] s rfl hstart

end Tree

/-! ## The walk as a fold -/

namespace Hoist

theorem mem_tagRules {tag : String} {rule : Rule} (h : defaultRules.rule? tag = some rule) :
    (tag, rule) ∈ tagRules := Dict.mem_of_get?_ofList h

theorem not_mem_tagRules {tag : String} (h : defaultRules.rule? tag = none) :
    tag ∉ tagRules.map Prod.fst := by
  intro hmem
  rw [defaultRules, Walker.rule?, Dict.get?_ofList (by decide)] at h
  have hsome := (lookupEntry_isSome tag tagRules).mpr hmem
  rw [h] at hsome
  cases hsome

variable (host : HostRules) (t : Tree)

/-- The state after the rules of one node. -/
def step (s : State) (v : Visit) : State :=
  (defaultRules.apply (Rule.meaning host) t v.node v.parent s).2

/-- The rules of a node first record its place, and then what its kind declares. -/
theorem step_eq (s : State) (v : Visit) : step host t s v =
    match defaultRules.rule? (t.tag v.node) with
    | some rule => (rule.meaning host t v.node v.parent (link t v.node v.parent s).2).2
    | none => (link t v.node v.parent s).2 := by
  have hany : defaultRules.any = some .link := rfl
  rw [step, Walker.apply, hany]
  cases hrule : defaultRules.rule? (t.tag v.node) with
  | none => rfl
  | some rule => rfl

/-- The default rules that leave the children of a node alone. -/
def Rule.skips : Rule → Bool
  | .functionDeclaration | .skip | .classBody => true
  | _ => false

theorem Rule.action {rule : Rule} (hrule : ∀ name, rule ≠ .host name) (node : NodeId)
    (parent : Option NodeId) (s : State) :
    (rule.meaning host t node parent s).1 = if rule.skips then .skip else .descend := by
  cases rule with
  | link =>
    simp only [Rule.meaning, Hoist.link]
    split
    · rfl
    · split <;> rfl
  | classBody =>
    simp only [Rule.meaning, Hoist.classBody]
    split <;> rfl
  | catchBlock =>
    simp only [Rule.meaning, Hoist.catchBlock]
    split
    · split
      · split <;> rfl
      · rfl
    · rfl
  | host name => exact absurd rfl (hrule name)
  | _ => rfl

/-- The closed kinds are those with a rule that skips. -/
theorem isClosed_eq (tag : String) :
    Tag.isClosed tag = ((defaultRules.rule? tag).map Rule.skips).getD false := by
  cases hrule : defaultRules.rule? tag with
  | none =>
    have htag := not_mem_tagRules hrule
    simp only [tagRules, List.map_cons, List.map_nil, List.mem_cons, not_or] at htag
    simp [Tag.isClosed, Tag.isFunction, htag]
  | some rule =>
    have hmem := mem_tagRules hrule
    simp only [tagRules, List.mem_cons, Prod.mk.injEq, List.not_mem_nil, or_false] at hmem
    rcases hmem with ⟨rfl, rfl⟩ | ⟨rfl, rfl⟩ | ⟨rfl, rfl⟩ | ⟨rfl, rfl⟩ | ⟨rfl, rfl⟩ |
      ⟨rfl, rfl⟩ | ⟨rfl, rfl⟩ | ⟨rfl, rfl⟩ | ⟨rfl, rfl⟩ | ⟨rfl, rfl⟩ <;> rfl

/-- A walk goes on below exactly the nodes that are not closed. -/
theorem apply_action (node : NodeId) (parent : Option NodeId) (s : State) :
    (defaultRules.apply (Rule.meaning host) t node parent s).1 =
      if Tag.isClosed (t.tag node) then .skip else .descend := by
  have hany : defaultRules.any = some .link := rfl
  have hlink : (Rule.link.meaning host t node parent s).1 = .descend :=
    Rule.action host t (by simp) node parent s
  rw [Walker.apply, hany, isClosed_eq]
  simp only [hlink]
  cases hrule : defaultRules.rule? (t.tag node) with
  | none => rfl
  | some rule =>
    have hhost := defaultRules_ne_host (Or.inr ⟨_, hrule⟩)
    exact Rule.action host t hhost node parent _

/-- A walk under the default rules is a fold over its visits. -/
theorem visit_eq_foldl (levels : Nat) (v : Visit) (s : State) :
    defaultRules.visit (Rule.meaning host) t levels v.node v.parent s =
      (t.visitsWithin levels v).foldl (step host t) s := by
  induction levels generalizing v s with
  | zero => rfl
  | succ levels ih =>
    have haction := apply_action host t v.node v.parent s
    have hstep : (defaultRules.apply (Rule.meaning host) t v.node v.parent s).2 = step host t s v := rfl
    rw [Walker.visit, Tree.visitsWithin, List.foldl_cons]
    split
    next s' hs =>
      rw [hs] at haction hstep
      cases hclosed : Tag.isClosed (t.tag v.node) with
      | true => exact hstep
      | false => simp [hclosed] at haction
    next s' hs =>
      rw [hs] at haction hstep
      cases hclosed : Tag.isClosed (t.tag v.node) with
      | true => simp [hclosed] at haction
      | false =>
        rw [if_neg (by simp), List.foldl_flatMap, ← hstep]
        congr
        funext s child
        exact ih (v.child t child) s

end Hoist

/-- A resolution under the default rules is a fold over the visits from its root. -/
theorem Resolver.run_eq_foldl {r : Resolver} (hr : r.rules = Hoist.defaultRules) (t : Tree)
    (root : NodeId) (scope : ScopeId) (g : ScopeGraph) :
    r.run t root scope g = (t.visits root).foldl (Hoist.step r.host t) ⟨.start root scope, g⟩ := by
  rw [run, Walker.walkFrom, hr]
  exact Hoist.visit_eq_foldl r.host t t.size (.start root) _

end ScriptCore

import Mathlib.Data.List.Nodup
import Mathlib.Data.List.Pairwise
import Mathlib.Data.List.Perm.Basic
import Mathlib.Logic.Relation
import ScriptCore.Proofs.Tree.Reading

/-!
# Trees that hang together

The importer adds children before their parents and gives every node it adds to exactly one place: the
field of a node added later, or the root. So an imported tree is a tree indeed. No node is held twice,
ids grow towards the root, and of two nodes above a third one lies above the other.
-/
namespace ScriptCore

/-- In a list without repetitions that is put together from parts, what is in two parts tells that they
are one. -/
theorem eq_of_mem_parts {α β : Type} {l : List α} {f : α → List β} (h : (l.flatMap f).Nodup)
    {a b : α} (ha : a ∈ l) (hb : b ∈ l) {x : β} (hxa : x ∈ f a) (hxb : x ∈ f b) : a = b := by
  have hsymm : Std.Symm (Function.onFun List.Disjoint f) := ⟨fun _ _ h => List.disjoint_symm h⟩
  by_contra hne
  exact (List.nodup_flatMap.mp h).2.forall ha hb hne hxa hxb

/-- The children that a node holds in any of its fields. -/
def Node.held (n : Node) : List NodeId := n.fields.flatMap fun f => f.2.children

namespace TreeBuilder

theorem nodes_add (b : TreeBuilder) (tag : String) (fields : List (String × Field)) :
    (b.add tag fields).2.nodes.toList = b.nodes.toList ++ [⟨tag, fields⟩] := by
  simp [add]

theorem size_add (b : TreeBuilder) (tag : String) (fields : List (String × Field)) :
    (b.add tag fields).2.size = b.size + 1 := by
  simp [add, size]

/-- All children that nodes hold. -/
def held (b : TreeBuilder) : List NodeId := b.nodes.toList.flatMap Node.held

/-- Children come before the nodes that hold them. -/
def Ordered (b : TreeBuilder) : Prop :=
  ∀ (i : NodeId) (n : Node), b.nodes[i]? = some n → ∀ child ∈ n.held, child < i

/-- From `b` to `b'`, nodes were added, and each of them is held once by a node or is one of the `loose`
ones. -/
structure Adds (b b' : TreeBuilder) (loose : List NodeId) : Prop where
  size_le : b.size ≤ b'.size
  ordered : b.Ordered → b'.Ordered
  perm : (b'.held ++ loose).Perm (b.held ++ List.range' b.size (b'.size - b.size))

theorem Adds.refl (b : TreeBuilder) : b.Adds b [] := by
  refine ⟨Nat.le_refl _, id, ?_⟩
  simp

theorem Adds.trans {b₁ b₂ b₃ : TreeBuilder} {loose₁ loose₂ : List NodeId} (h₁ : b₁.Adds b₂ loose₁)
    (h₂ : b₂.Adds b₃ loose₂) : b₁.Adds b₃ (loose₁ ++ loose₂) := by
  refine ⟨Nat.le_trans h₁.size_le h₂.size_le, h₂.ordered ∘ h₁.ordered, ?_⟩
  have hrange : List.range' b₁.size (b₃.size - b₁.size)
      = List.range' b₁.size (b₂.size - b₁.size) ++ List.range' b₂.size (b₃.size - b₂.size) := by
    have h12 := h₁.size_le
    have h23 := h₂.size_le
    rw [show b₃.size - b₁.size = (b₂.size - b₁.size) + (b₃.size - b₂.size) by omega,
      ← List.range'_append_1, show b₁.size + (b₂.size - b₁.size) = b₂.size by omega]
  calc (b₃.held ++ (loose₁ ++ loose₂)).Perm ((b₃.held ++ loose₂) ++ loose₁) := by
        rw [List.append_assoc]
        exact List.perm_append_comm.append_left _
    List.Perm _ ((b₂.held ++ List.range' b₂.size (b₃.size - b₂.size)) ++ loose₁) :=
        h₂.perm.append_right _
    List.Perm _ ((b₂.held ++ loose₁) ++ List.range' b₂.size (b₃.size - b₂.size)) := by
        rw [List.append_assoc, List.append_assoc]
        exact List.perm_append_comm.append_left _
    List.Perm _ ((b₁.held ++ List.range' b₁.size (b₂.size - b₁.size))
        ++ List.range' b₂.size (b₃.size - b₂.size)) := h₁.perm.append_right _
    _ = b₁.held ++ List.range' b₁.size (b₃.size - b₁.size) := by rw [hrange, List.append_assoc]

/-- The loose nodes are among those that were added. -/
theorem Adds.lt_size {b b' : TreeBuilder} {loose : List NodeId} (h : b.Adds b' loose)
    (hb : b.Ordered) {child : NodeId} (hmem : child ∈ loose) : child < b'.size := by
  have hin := h.perm.subset (List.mem_append_right _ hmem)
  rcases List.mem_append.mp hin with hheld | hrange
  · simp only [held, List.mem_flatMap] at hheld
    obtain ⟨n, hn, hchild⟩ := hheld
    obtain ⟨i, hi⟩ := List.mem_iff_getElem?.mp hn
    have hlt := hb i n (by simpa using hi) child hchild
    have hsize : i < b.size := by
      rw [Array.getElem?_toList] at hi
      exact (Array.getElem?_eq_some_iff.mp hi).1
    have hle := h.size_le
    exact Nat.lt_of_lt_of_le (Nat.lt_trans hlt hsize) hle
  · have hlt := (List.mem_range'_1.mp hrange).2
    have hle := h.size_le
    exact Nat.lt_of_lt_of_le hlt (by omega)

/-- A node that takes all loose nodes is loose itself. -/
theorem Adds.add {b b' : TreeBuilder} {fields : List (String × Field)}
    (h : b.Adds b' (fields.flatMap fun f => f.2.children)) (hb : b.Ordered) (tag : String) :
    b.Adds (b'.add tag fields).2 [(b'.add tag fields).1] := by
  have hsize := b'.size_add tag fields
  have hheld : (b'.add tag fields).2.held = b'.held ++ fields.flatMap fun f => f.2.children := by
    simp [held, nodes_add, Node.held]
  have hle := h.size_le
  refine ⟨by omega, fun _ => ?_, ?_⟩
  · intro i n hn child hchild
    simp only [TreeBuilder.add, Array.getElem?_push] at hn
    split at hn
    next hi =>
      cases hn
      rw [hi]
      exact h.lt_size hb hchild
    · exact h.ordered hb i n hn child hchild
  · have hrange : List.range' b.size (b'.size + 1 - b.size)
        = List.range' b.size (b'.size - b.size) ++ [b'.size] := by
      rw [show b'.size + 1 - b.size = (b'.size - b.size) + 1 by omega, List.range'_1_concat,
        show b.size + (b'.size - b.size) = b'.size by omega]
    rw [hheld, hsize, hrange, ← List.append_assoc]
    exact h.perm.append_right _

end TreeBuilder

namespace Import

/-- The children in a list of fields. -/
def childrenOf (fields : List (String × Field)) : List NodeId := fields.flatMap fun f => f.2.children

theorem childrenOf_append (fields others : List (String × Field)) :
    childrenOf (fields ++ others) = childrenOf fields ++ childrenOf others := List.flatMap_append

theorem childrenOf_singleton (key : String) (field : Field) : childrenOf [(key, field)] = field.children :=
  List.flatMap_singleton _ _

theorem children_of_scalar {value : Json} {field : Field} (h : scalar? value = some field) :
    field.children = [] := by
  cases value <;> cases h <;> rfl

mutual

/-- Reading members adds the children that their fields hold. -/
theorem ReadsFields.adds {keyPrefix : String} {members : List (String × Json)} {b b' : TreeBuilder}
    {fields : List (String × Field)} :
    ReadsFields keyPrefix members b fields b' → b.Ordered → b.Adds b' (childrenOf fields)
  | .nil _ b, _ => .refl b
  | .skip _ hrest, hb => hrest.adds hb
  | .cons _ hfirst hrest, hb => by
    have hadds := hfirst.adds hb
    rw [childrenOf_append]
    exact hadds.trans (hrest.adds (hadds.ordered hb))

theorem ReadsField.adds {key : String} {value : Json} {b b' : TreeBuilder}
    {fields : List (String × Field)} :
    ReadsField key value b fields b' → b.Ordered → b.Adds b' (childrenOf fields)
  | .scalar h b, _ => by
    rw [childrenOf_singleton, children_of_scalar h]
    exact .refl b
  | .list hitems, hb => by
    rw [childrenOf_singleton]
    exact hitems.adds hb
  | .node hnode, hb => by
    rw [childrenOf_singleton]
    exact hnode.adds hb
  | .plain _ hfields, hb => hfields.adds hb

theorem ReadsItems.adds {items : List Json} {b b' : TreeBuilder} {ids : List (Option NodeId)} :
    ReadsItems items b ids b' → b.Ordered → b.Adds b' (ids.filterMap fun item => item)
  | .nil b, _ => .refl b
  | .hole hrest, hb => hrest.adds hb
  | .node hnode hrest, hb => by
    have hadds := hnode.adds hb
    exact hadds.trans (hrest.adds (hadds.ordered hb))

theorem ReadsNode.adds {members : List (String × Json)} {b b' : TreeBuilder} {id : NodeId} :
    ReadsNode members b id b' → b.Ordered → b.Adds b' [id]
  | .add _ hfields, hb => (hfields.adds hb).add hb _

end

end Import

namespace Tree

variable {t : Tree}

/-- The children that a node holds in any of its fields. -/
def held (t : Tree) (node : NodeId) : List NodeId := (t.node node).held

/-- A tree that hangs together: children have smaller ids than their parents, and no node is held
twice. -/
structure Proper (t : Tree) : Prop where
  lt_of_held : ∀ {node child : NodeId}, child ∈ t.held node → child < node
  once : ((List.range t.size).flatMap t.held).Nodup
  root_lt : t.root < t.size
  root_free : ∀ node, t.root ∉ t.held node

theorem held_flatMap (t : Tree) :
    (List.range t.size).flatMap t.held = t.nodes.toList.flatMap Node.held := by
  have hnodes : t.nodes.toList = (List.range t.size).map t.node := by
    apply List.ext_getElem
    · simp [size]
    · intro i h₁ h₂
      have hi : i < t.nodes.size := by simpa using h₁
      simp [node, hi]
  rw [hnodes, List.flatMap_map]
  rfl

/-- Imported trees hang together. -/
theorem ofJson_proper {j : Json} (h : ofJson j = .ok t) : t.Proper := by
  have hempty : TreeBuilder.Ordered {} := by
    intro i n hn
    simp at hn
  obtain ⟨members, b, rfl, hnode, ht⟩ := Import.reads_of_ofJson h
  have hadds := hnode.adds hempty
  have hnodes : t.nodes = b.nodes := by rw [ht, TreeBuilder.finish]
  have hperm : ((List.range t.size).flatMap t.held ++ [t.root]).Perm (List.range t.size) := by
    have hsize : t.size = b.size := by rw [size, hnodes, TreeBuilder.size]
    rw [held_flatMap, hnodes, hsize]
    simpa [TreeBuilder.held, TreeBuilder.size, List.range_eq_range'] using hadds.perm
  have hnodup := hperm.nodup_iff.mpr List.nodup_range
  rw [List.nodup_append'] at hnodup
  obtain ⟨honce, -, hdisjoint⟩ := hnodup
  refine ⟨?_, honce, ?_, ?_⟩
  · intro n child hchild
    cases hn : b.nodes[n]? with
    | none => simp [held, node, hnodes, hn, Node.held] at hchild
    | some found =>
      have hheld : child ∈ found.held := by simpa [held, node, hnodes, hn] using hchild
      exact hadds.ordered hempty n found hn child hheld
  · have hroot : t.root ∈ List.range t.size := hperm.subset (by simp)
    exact List.mem_range.mp hroot
  · intro n hn
    have hlt : n < t.size := by
      by_contra hge
      have hnone : t.nodes[n]? = none := Array.getElem?_eq_none (Nat.not_lt.mp hge)
      simp [held, node, hnone, Node.held] at hn
    exact hdisjoint (List.mem_flatMap.mpr ⟨n, List.mem_range.mpr hlt, hn⟩) (by simp)

/-! ## Parents and children -/

theorem lt_size_of_held {node child : NodeId} (h : child ∈ t.held node) : node < t.size := by
  by_contra hge
  have hnone : t.nodes[node]? = none := Array.getElem?_eq_none (Nat.not_lt.mp hge)
  simp [held, Tree.node, hnone, Node.held] at h

/-- A node has at most one parent. -/
theorem Proper.unique_parent (ht : t.Proper) {p q child : NodeId} (hp : child ∈ t.held p)
    (hq : child ∈ t.held q) : p = q := by
  exact eq_of_mem_parts ht.once (List.mem_range.mpr (lt_size_of_held hp))
    (List.mem_range.mpr (lt_size_of_held hq)) hp hq

theorem Proper.held_nodup (ht : t.Proper) (node : NodeId) : (t.held node).Nodup := by
  by_cases hlt : node < t.size
  · exact (List.nodup_flatMap.mp ht.once).1 node (List.mem_range.mpr hlt)
  · have hnone : t.nodes[node]? = none := Array.getElem?_eq_none (Nat.not_lt.mp hlt)
    simp [held, Tree.node, hnone, Node.held]

theorem visitorKeys_nodup {tag : String} {keys : List String}
    (h : Tag.visitorKeys? tag = some keys) : keys.Nodup := by
  unfold Tag.visitorKeys? at h
  split at h <;> cases h <;> decide

theorem field?_mem {n : Node} {key : String} {field : Field} (h : n.field? key = some field) :
    (key, field) ∈ n.fields := by
  simp only [Node.field?, Option.map_eq_some_iff] at h
  obtain ⟨⟨name, found⟩, hfound, rfl⟩ := h
  have hname := List.find?_some hfound
  simp only [beq_iff_eq] at hname
  rw [← hname]
  exact List.mem_of_find?_eq_some hfound

/-- The children that a walk visits are held, and each is visited once. -/
theorem childNodes_subset_held (node : NodeId) : t.childNodes node ⊆ t.held node := by
  intro child h
  simp only [childNodes] at h
  split at h
  next keys _ =>
    simp only [List.mem_flatMap, List.mem_filterMap] at h
    obtain ⟨field, ⟨key, -, hfield⟩, hchild⟩ := h
    exact List.mem_flatMap.mpr ⟨_, field?_mem hfield, hchild⟩
  · exact h

/-- No child is in two fields of a node. -/
theorem Proper.key_eq (ht : t.Proper) {node child : NodeId} {key key' : String} {field field' : Field}
    (h : t.field? node key = some field) (h' : t.field? node key' = some field')
    (hchild : child ∈ field.children) (hchild' : child ∈ field'.children) : key = key' := by
  have heq := eq_of_mem_parts (ht.held_nodup node) (field?_mem h) (field?_mem h') hchild hchild'
  exact congrArg Prod.fst heq

/-- Distinct keys lead to distinct fields, which share no child. -/
theorem fieldChildren_nodup {n : Node} (hn : n.held.Nodup) {keys : List String}
    (hkeys : keys.Nodup) : ((keys.filterMap n.field?).flatMap Field.children).Nodup := by
  have hown := (List.nodup_flatMap.mp hn).1
  induction keys with
  | nil => simp
  | cons key rest ih =>
    obtain ⟨hkey, hrest⟩ := List.nodup_cons.mp hkeys
    cases hfield : n.field? key with
    | none =>
      rw [List.filterMap_cons_none hfield]
      exact ih hrest
    | some field =>
      rw [List.filterMap_cons_some hfield, List.flatMap_cons, List.nodup_append']
      refine ⟨hown _ (field?_mem hfield), ih hrest, ?_⟩
      intro child hchild hother
      simp only [List.mem_flatMap, List.mem_filterMap] at hother
      obtain ⟨other, ⟨key', hkey', hother⟩, hchild'⟩ := hother
      have heq := eq_of_mem_parts hn (field?_mem hfield) (field?_mem hother) hchild hchild'
      cases heq
      exact hkey hkey'

theorem Proper.childNodes_nodup (ht : t.Proper) (node : NodeId) : (t.childNodes node).Nodup := by
  simp only [childNodes]
  split
  next keys hkeys => exact fieldChildren_nodup (ht.held_nodup node) (visitorKeys_nodup hkeys)
  · exact ht.held_nodup node

theorem Proper.child_lt (ht : t.Proper) {node child : NodeId} (h : child ∈ t.childNodes node) :
    child < node := ht.lt_of_held (childNodes_subset_held node h)

/-! ## Above and below -/

/-- A node is below another if it is that node or below one of the nodes that it holds. -/
def Below (t : Tree) (node below : NodeId) : Prop :=
  Relation.ReflTransGen (fun p child => child ∈ t.held p) node below

theorem Proper.below_le (ht : t.Proper) {node below : NodeId} (h : t.Below node below) :
    below ≤ node := by
  induction h with
  | refl => exact Nat.le_refl _
  | tail _ hheld ih => exact Nat.le_trans (Nat.le_of_lt (ht.lt_of_held hheld)) ih

/-- Of two nodes above a third, one is above the other. -/
theorem Proper.below_total (ht : t.Proper) {a b node : NodeId} (ha : t.Below a node)
    (hb : t.Below b node) : t.Below a b ∨ t.Below b a := by
  induction ha with
  | refl => exact Or.inr hb
  | tail hap hheld ih =>
    rcases Relation.ReflTransGen.cases_tail hb with rfl | ⟨q, hbq, hheld'⟩
    · exact Or.inl (hap.tail hheld)
    · have hq := ht.unique_parent hheld hheld'
      rw [← hq] at hbq
      exact ih hbq

/-- Nothing is below two nodes that one node holds. -/
theorem Proper.not_below_siblings (ht : t.Proper) {p a b node : NodeId} (ha : a ∈ t.held p)
    (hb : b ∈ t.held p) (hne : a ≠ b) (hbelow : t.Below a node) : ¬ t.Below b node := by
  have hsibling : ∀ {a b : NodeId}, a ∈ t.held p → b ∈ t.held p → a ≠ b → ¬ t.Below a b := by
    intro a b ha hb hne h
    rcases Relation.ReflTransGen.cases_tail h with rfl | ⟨q, haq, hheld⟩
    · exact hne rfl
    · have hq := ht.unique_parent hheld hb
      rw [hq] at haq
      exact Nat.not_lt.mpr (ht.below_le haq) (ht.lt_of_held ha)
  intro hbelow'
  rcases ht.below_total hbelow hbelow' with h | h
  · exact hsibling ha hb hne h
  · exact hsibling hb ha hne.symm h

end Tree

end ScriptCore

import ScriptCore.Proofs.Tree.Proper

/-!
# The order of nodes

An import adds one node for each object with a `type`, children first and in written order. So the ids of
a tree are the places of its nodes in post-order (`postorder_root`): the nodes below a node come right
before it, those below one child before those below the next, and the root is the last of all.
-/
namespace ScriptCore

mutual

/-- The `type` members in a value, in written order but those within an object before its own. What an
imported tree leaves out is passed over. -/
def Json.types : Json → List Json
  | .array items => Json.typesOfItems items
  | .object members => Json.typesOfMembers members ++ (lookupEntry "type" members).toList
  | _ => []

def Json.typesOfItems : List Json → List Json
  | [] => []
  | item :: rest => item.types ++ Json.typesOfItems rest

def Json.typesOfMembers : List (String × Json) → List Json
  | [] => []
  | (name, value) :: rest =>
    (if Import.leftOut name then [] else value.types) ++ Json.typesOfMembers rest

end

namespace Tree

/-- The nodes below a node in post-order, down to the given number of levels. -/
def postorder (t : Tree) : Nat → NodeId → List NodeId
  | 0, _ => []
  | levels + 1, n => (t.held n).flatMap (t.postorder levels) ++ [n]

end Tree

namespace TreeBuilder

/-- The tags of the nodes added so far. -/
def types (b : TreeBuilder) : List Json := b.nodes.toList.map fun n => .string n.tag

/-- The builder's nodes are the first of the tree's. -/
def Starts (b : TreeBuilder) (t : Tree) : Prop := b.nodes.toList <+: t.nodes.toList

theorem starts_of_eq {b : TreeBuilder} {t : Tree} (h : t.nodes = b.nodes) : b.Starts t := by
  unfold Starts
  exact h ▸ List.prefix_refl _

theorem kept_add (b : TreeBuilder) (tag : String) (fields : List (String × Field)) :
    b.nodes.toList <+: (b.add tag fields).2.nodes.toList := by
  rw [nodes_add]
  exact List.prefix_append _ _

/-- The node that was added last. -/
theorem Starts.node_add {b : TreeBuilder} {t : Tree} {tag : String} {fields : List (String × Field)}
    (h : (b.add tag fields).2.Starts t) : t.node b.size = ⟨tag, fields⟩ := by
  obtain ⟨rest, hrest⟩ := h
  have hnode : t.nodes[b.size]? = some ⟨tag, fields⟩ := by
    rw [← Array.getElem?_toList, ← hrest, nodes_add]
    simp [size]
  rw [Tree.node, hnode]
  rfl

/-- From `b` to `b'`, nodes of the given types were added, those below the `loose` ones in post-order. -/
structure Lays (types : List Json) (b b' : TreeBuilder) (loose : List NodeId) : Prop where
  kept : b.nodes.toList <+: b'.nodes.toList
  types_eq : b'.types = b.types ++ types
  order : ∀ t, b'.Starts t → ∀ levels, b'.size ≤ levels →
    loose.flatMap (t.postorder levels) = List.range' b.size (b'.size - b.size)

namespace Lays

variable {b b₁ b₂ b' : TreeBuilder} {types types' : List Json} {loose loose' : List NodeId}

theorem size_le (h : b.Lays types b' loose) : b.size ≤ b'.size := by
  have hle := h.kept.length_le
  rwa [Array.length_toList, Array.length_toList] at hle

theorem refl (b : TreeBuilder) : b.Lays [] b [] :=
  ⟨List.prefix_refl _, (List.append_nil _).symm, fun _ _ _ _ => by simp⟩

theorem trans (h : b.Lays types b₁ loose) (h' : b₁.Lays types' b₂ loose') :
    b.Lays (types ++ types') b₂ (loose ++ loose') := by
  refine ⟨h.kept.trans h'.kept, ?_, fun t ht levels hlevels => ?_⟩
  · rw [h'.types_eq, h.types_eq, List.append_assoc]
  · have hle := h.size_le
    have hle' := h'.size_le
    have hsplit : b₂.size - b.size = (b₁.size - b.size) + (b₂.size - b₁.size) := by omega
    have hmid : b.size + (b₁.size - b.size) = b₁.size := by omega
    rw [List.flatMap_append, h.order t (h'.kept.trans ht) levels (Nat.le_trans hle' hlevels),
      h'.order t ht levels hlevels, hsplit, ← List.range'_append_1, hmid]

/-- A node takes its place after all that is below it. -/
theorem add {fields : List (String × Field)} (h : b.Lays types b' (Import.childrenOf fields))
    (tag : String) :
    b.Lays (types ++ [.string tag]) (b'.add tag fields).2 [(b'.add tag fields).1] := by
  refine ⟨h.kept.trans (kept_add b' tag fields), ?_, fun t ht levels hlevels => ?_⟩
  · have htypes : (b'.add tag fields).2.types = b'.types ++ [.string tag] := by
      simp [TreeBuilder.types, nodes_add]
    rw [htypes, h.types_eq, List.append_assoc]
  · have hle := h.size_le
    rw [size_add] at hlevels
    obtain ⟨levels, rfl⟩ : ∃ n, levels = n + 1 := ⟨levels - 1, by omega⟩
    have hheld : t.held b'.size = Import.childrenOf fields := by
      rw [Tree.held, ht.node_add]
      rfl
    have hsplit : b'.size + 1 - b.size = (b'.size - b.size) + 1 := by omega
    have hlast : b.size + (b'.size - b.size) = b'.size := by omega
    calc [(b'.add tag fields).1].flatMap (t.postorder (levels + 1))
        = (t.held b'.size).flatMap (t.postorder levels) ++ [b'.size] := by
          rw [List.flatMap_singleton]
          rfl
      _ = List.range' b.size (b'.size - b.size) ++ [b'.size] := by
          rw [hheld, h.order t ((kept_add b' tag fields).trans ht) levels (by omega)]
      _ = List.range' b.size ((b'.add tag fields).2.size - b.size) := by
          rw [size_add, hsplit, List.range'_1_concat, hlast]

end Lays

end TreeBuilder

namespace Import

theorem types_of_scalar {value : Json} {field : Field} (h : scalar? value = some field) :
    value.types = [] := by
  cases value <;> cases h <;> rfl

mutual

theorem ReadsFields.lays {keyPrefix : String} {members : List (String × Json)} {b b' : TreeBuilder}
    {fields : List (String × Field)} :
    ReadsFields keyPrefix members b fields b' →
      b.Lays (Json.typesOfMembers members) b' (childrenOf fields)
  | .nil _ b => .refl b
  | .skip hout hrest => by
    rw [Json.typesOfMembers, if_pos hout]
    exact hrest.lays
  | .cons hin hfirst hrest => by
    rw [Json.typesOfMembers, if_neg (Bool.eq_false_iff.mp hin), childrenOf_append]
    exact hfirst.lays.trans hrest.lays

theorem ReadsField.lays {key : String} {value : Json} {b b' : TreeBuilder}
    {fields : List (String × Field)} :
    ReadsField key value b fields b' → b.Lays value.types b' (childrenOf fields)
  | .scalar h b => by
    rw [types_of_scalar h, childrenOf_singleton, children_of_scalar h]
    exact .refl b
  | .list hitems => by
    rw [Json.types, childrenOf_singleton]
    exact hitems.lays
  | .node hnode => by
    rw [childrenOf_singleton]
    exact hnode.lays
  | .plain hrole hfields => by
    rw [Json.types, hrole, Option.toList_none, List.append_nil]
    exact hfields.lays

theorem ReadsItems.lays {items : List Json} {b b' : TreeBuilder} {ids : List (Option NodeId)} :
    ReadsItems items b ids b' → b.Lays (Json.typesOfItems items) b' (ids.filterMap fun item => item)
  | .nil b => .refl b
  | .hole hrest => hrest.lays
  | .node hnode hrest => hnode.lays.trans hrest.lays

theorem ReadsNode.lays {members : List (String × Json)} {b b' : TreeBuilder} {id : NodeId} :
    ReadsNode members b id b' → b.Lays (Json.object members).types b' [id]
  | .add htag hfields => by
    rw [Json.types, htag]
    exact hfields.lays.add _

end

end Import

namespace Tree

variable {t : Tree} {n m : NodeId}

/-! ## Levels -/

/-- Children have smaller ids than their parents, so that levels beyond a node's id are not used up by what is
computed from the children with one level less. -/
theorem Proper.levels_eq (ht : t.Proper) {γ : Type} {f : Nat → NodeId → γ}
    (hstep : ∀ levels levels' n, (∀ child ∈ t.held n, f levels child = f levels' child) →
      f (levels + 1) n = f (levels' + 1) n)
    {levels levels' : Nat} (h : n < levels) (h' : n < levels') : f levels n = f levels' n := by
  induction levels generalizing levels' n with
  | zero => exact absurd h (Nat.not_lt_zero n)
  | succ levels ih =>
    cases levels' with
    | zero => exact absurd h' (Nat.not_lt_zero n)
    | succ levels' =>
      refine hstep levels levels' n fun child hchild => ?_
      have hlt := ht.lt_of_held hchild
      exact ih (Nat.lt_of_lt_of_le hlt (Nat.le_of_lt_succ h)) (Nat.lt_of_lt_of_le hlt (Nat.le_of_lt_succ h'))

end Tree

end ScriptCore

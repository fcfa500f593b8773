import ScriptCore.Hoist.Rule
import ScriptCore.Proofs.Tree.Grammar
import ScriptCore.Value.Closure

/-!
# Targets

The places of a program that bind a name or write to one: what declarations, parameters, patterns,
assignments and imports name. Both passes declare and assign names of such places only, so a name that
no target has is the business of neither.
-/
namespace ScriptCore.Tree

variable {t : Tree}

/-! ## Strictly below -/

/-- A node is under another if it is held by it or by a node under it. -/
def Under (t : Tree) (n m : NodeId) : Prop :=
  Relation.TransGen (fun p child => child ∈ t.held p) n m

theorem Proper.lt_of_under (ht : t.Proper) {n m : NodeId} (h : t.Under n m) : m < n := by
  induction h with
  | single hheld => exact ht.lt_of_held hheld
  | tail _ hheld ih => exact Nat.lt_trans (ht.lt_of_held hheld) ih

theorem held_of_child? {n child : NodeId} {key : String} (h : t.child? n key = some child) :
    child ∈ t.held n :=
  List.mem_flatMap.mpr ⟨_, field?_mem (field?_of_child? h), List.mem_singleton_self child⟩

theorem held_of_present {n child : NodeId} {key : String} (h : child ∈ t.present n key) :
    child ∈ t.held n := by
  obtain ⟨items, hfield, hin⟩ := field?_of_present h
  exact List.mem_flatMap.mpr ⟨_, field?_mem hfield, hin⟩

/-- There is nothing to be said of nodes that a tree does not have. -/
theorem tag_of_size_le {n : NodeId} (h : t.size ≤ n) : t.tag n = "" := by
  have hnone : t.nodes[n]? = none := Array.getElem?_eq_none h
  simp [tag, node, hnone]

/-- What is checked of all nodes holds of every node that has a tag. -/
theorem of_all_nodes {check : NodeId → Bool} (h : (List.range t.size).all check = true) {n : NodeId}
    (htag : t.tag n ≠ "") : check n = true := by
  have hn : n < t.size := by
    by_contra hn
    exact htag (tag_of_size_le (Nat.le_of_not_lt hn))
  exact List.all_eq_true.mp h n (List.mem_range.mpr hn)

/-! ## Targets -/

/-- The nodes whose names a node binds or writes to. -/
def targets (t : Tree) (n : NodeId) : List NodeId :=
  match t.tag n with
  | "VariableDeclaration" => (t.present n "declarations").flatMap fun d => (t.child? d "id").toList
  | "VariableDeclarator" | "ClassDeclaration" | "ClassExpression" => (t.child? n "id").toList
  | "FunctionDeclaration" | "FunctionExpression" => (t.child? n "id").toList ++ t.present n "params"
  | "ArrowFunctionExpression" => t.present n "params"
  | "ImportSpecifier" | "ImportDefaultSpecifier" | "ImportNamespaceSpecifier" =>
    (t.child? n "local").toList
  | "CatchClause" => (t.child? n "param").toList
  | "TryStatement" => ((t.child? n "handler").bind fun clause => t.child? clause "param").toList
  | "AssignmentExpression" | "AssignmentPattern" | "ForInStatement" | "ForOfStatement" =>
    (t.child? n "left").toList
  | "UpdateExpression" | "RestElement" => (t.child? n "argument").toList
  | "ArrayPattern" => t.present n "elements"
  | "ObjectPattern" =>
    (t.present n "properties").flatMap fun property => property :: (t.child? property "value").toList
  | _ => []

/-- Some node binds or writes to this one. -/
def IsTarget (t : Tree) (p : NodeId) : Prop := ∃ n, p ∈ t.targets n

/-- The fields that hold a target on their own. -/
def bindingFields : List (String × String) :=
  [("VariableDeclarator", "id"), ("FunctionDeclaration", "id"), ("ClassDeclaration", "id"),
    ("ClassExpression", "id"), ("CatchClause", "param"), ("ImportSpecifier", "local"),
    ("ImportDefaultSpecifier", "local"), ("ImportNamespaceSpecifier", "local")]

theorem isTarget_of_bindingField {n child : NodeId} {key : String}
    (hchild : t.child? n key = some child) (hfield : (t.tag n, key) ∈ bindingFields) :
    t.IsTarget child := by
  refine ⟨n, ?_⟩
  simp only [bindingFields, List.mem_cons, Prod.mk.injEq, List.not_mem_nil, or_false] at hfield
  obtain ⟨htag, rfl⟩ | ⟨htag, rfl⟩ | ⟨htag, rfl⟩ | ⟨htag, rfl⟩ | ⟨htag, rfl⟩ | ⟨htag, rfl⟩ |
    ⟨htag, rfl⟩ | ⟨htag, rfl⟩ := hfield <;> simp [targets, htag, hchild]

/-- The name of a target. -/
def TargetName (t : Tree) (name : String) : Prop :=
  ∃ p, t.IsTarget p ∧ t.identifierName? p = some name

theorem targetName_of {p : NodeId} {name : String} (hp : t.IsTarget p)
    (h : t.identifierName? p = some name) : t.TargetName name := ⟨p, hp, h⟩

/-- A pattern that is a target binds names of targets only. -/
theorem targetName_of_bindingNames {fuel : Nat} {p : NodeId} {name : String} (hp : t.IsTarget p)
    (h : name ∈ t.bindingNamesWithin fuel p) : t.TargetName name := by
  induction fuel generalizing p with
  | zero => simp [bindingNamesWithin] at h
  | succ fuel ih =>
    rw [bindingNamesWithin] at h
    simp only at h
    split at h
    · exact targetName_of hp (by simpa using h)
    next htag =>
      obtain ⟨property, hproperty, hname⟩ := List.mem_flatMap.mp h
      split at hname
      next child hchild =>
        refine ih ⟨p, ?_⟩ hname
        simp only [targets, htag]
        refine List.mem_flatMap.mpr ⟨property, hproperty, ?_⟩
        split at hchild
        · simp [hchild]
        · cases hchild
          exact List.mem_cons_self
      · cases hname
    next htag =>
      obtain ⟨element, helement, hname⟩ := List.mem_flatMap.mp h
      refine ih ⟨p, ?_⟩ hname
      simpa only [targets, htag] using helement
    next htag =>
      split at h
      next child hchild =>
        refine ih ⟨p, ?_⟩ h
        simp [targets, htag, hchild]
      · cases h
    next htag =>
      split at h
      next child hchild =>
        refine ih ⟨p, ?_⟩ h
        simp [targets, htag, hchild]
      · cases h
    · cases h

end ScriptCore.Tree

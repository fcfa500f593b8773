import ScriptCore.Proofs.Hoist.Complete

/-!
# The patterns of declarations

What a declaration may bind: identifiers, with defaults, in objects and arrays, and rest elements. The
hoisting goes down a pattern as far as the tree has nodes; on a tree that hangs together its names are those
of its parts, in order, and nothing is said of levels any more.
-/
namespace ScriptCore

namespace Tree

variable {t : Tree} {p : NodeId}

/-- The patterns of declarations. A rest element is the last one of an array pattern. -/
inductive IsPattern (t : Tree) : NodeId → Prop
  | identifier {p : NodeId} (htag : t.tag p = "Identifier") : IsPattern t p
  | withDefault {p : NodeId} (htag : t.tag p = "AssignmentPattern")
    (hleft : ∀ left, t.child? p "left" = some left → IsPattern t left) : IsPattern t p
  | rest {p : NodeId} (htag : t.tag p = "RestElement")
    (hargument : ∀ argument, t.child? p "argument" = some argument → IsPattern t argument) : IsPattern t p
  | object {p : NodeId} (htag : t.tag p = "ObjectPattern")
    (hmembers : ∀ member ∈ t.present p "properties",
      t.tag member = "Property" ∨ t.tag member = "RestElement")
    (hvalues : ∀ member ∈ t.present p "properties", t.tag member = "Property" →
      ∀ value, t.child? member "value" = some value → IsPattern t value)
    (hrests : ∀ member ∈ t.present p "properties", t.tag member = "RestElement" → IsPattern t member) :
    IsPattern t p
  | array {p : NodeId} (htag : t.tag p = "ArrayPattern")
    (hlast : ∀ front element back, t.children p "elements" = front ++ some element :: back →
      t.tag element = "RestElement" → back = [])
    (helements : ∀ element ∈ t.present p "elements", IsPattern t element) : IsPattern t p

/-- Whether a node is a pattern of at most `levels` levels. -/
def patternWithin (t : Tree) : Nat → NodeId → Bool
  | 0, _ => false
  | levels + 1, p =>
    let inner (child : Option NodeId) : Bool := child.all fun child => patternWithin t levels child
    match t.tag p with
    | "Identifier" => true
    | "AssignmentPattern" => inner (t.child? p "left")
    | "RestElement" => inner (t.child? p "argument")
    | "ObjectPattern" => (t.present p "properties").all fun member =>
      t.is member "Property" && inner (t.child? member "value") ||
        t.is member "RestElement" && patternWithin t levels member
    | "ArrayPattern" =>
      (t.children p "elements").dropLast.all (fun item => item.all fun element => !t.is element "RestElement") &&
        (t.present p "elements").all fun element => patternWithin t levels element
    | _ => false

theorem IsPattern.of_patternWithin {levels : Nat} (h : t.patternWithin levels p = true) : t.IsPattern p := by
  induction levels generalizing p with
  | zero => cases h
  | succ levels ih =>
    simp only [patternWithin] at h
    split at h
    next htag => exact .identifier htag
    next htag => exact .withDefault htag fun left hleft => ih (by simpa [hleft] using h)
    next htag => exact .rest htag fun argument hargument => ih (by simpa [hargument] using h)
    next htag =>
      have hmember {member : NodeId} (hmem : member ∈ t.present p "properties") :=
        List.all_eq_true.mp h member hmem
      refine .object htag (fun member hmem => ?_) (fun member hmem hproperty value hvalue => ?_)
        fun member hmem hrest => ?_
      · have hkind := hmember hmem
        simp only [is, Bool.or_eq_true, Bool.and_eq_true, beq_iff_eq] at hkind
        exact hkind.imp And.left And.left
      · have hkind := hmember hmem
        simp [is, hproperty, hvalue] at hkind
        exact ih hkind
      · have hkind := hmember hmem
        simp [is, hrest] at hkind
        exact ih hkind
    next htag =>
      obtain ⟨hfront, helements⟩ := Bool.and_eq_true_iff.mp h
      refine .array htag (fun front element back hsplit hrest => ?_) fun element hmem =>
        ih (List.all_eq_true.mp helements element hmem)
      by_contra hback
      have hmem : some element ∈ (t.children p "elements").dropLast := by
        rw [hsplit, List.dropLast_append_of_ne_nil (List.cons_ne_nil _ _), List.dropLast_cons_of_ne_nil hback]
        exact List.mem_append_right _ List.mem_cons_self
      have hnotRest := List.all_eq_true.mp hfront _ hmem
      simp [is, hrest] at hnotRest
    · cases h

/-- The names of a part of a pattern, if it is there. -/
def namesOf? (t : Tree) (part : Option NodeId) : List String := part.elim [] t.bindingNames

@[simp] theorem namesOf?_some : t.namesOf? (some p) = t.bindingNames p := rfl

/-- The names that a member of an object pattern binds. -/
def memberNames (t : Tree) (member : NodeId) : List String :=
  t.namesOf? (if t.is member "Property" then t.child? member "value" else some member)

theorem lt_size_of_tag (h : t.tag p ≠ "") : p < t.size := by
  by_contra hp
  exact h (tag_of_size_le (Nat.le_of_not_lt hp))

theorem tag_of_identifierName? {name : String} (h : t.identifierName? p = some name) :
    t.tag p = "Identifier" := by
  rw [identifierName?] at h
  split at h
  next htag => exact eq_of_beq htag
  · cases h

/-- A pattern has one level of names more than its parts. -/
theorem Proper.exists_levels (ht : t.Proper) (htag : t.tag p ≠ "") :
    ∃ levels, t.bindingNames p = t.bindingNamesWithin (levels + 1) p ∧
      ∀ part, (∀ child, part = some child → child < p) → (match part with
        | some child => t.bindingNamesWithin levels child
        | none => []) = t.namesOf? part := by
  have hp := lt_size_of_tag htag
  obtain ⟨levels, hlevels⟩ := Nat.exists_eq_succ_of_ne_zero (Nat.ne_zero_of_lt hp)
  refine ⟨levels, by rw [bindingNames, hlevels], fun part hpart => ?_⟩
  cases part with
  | none => rfl
  | some child =>
    have hchild : child < levels :=
      Nat.lt_of_lt_of_le (hpart child rfl) (Nat.le_of_lt_succ (hlevels ▸ hp))
    show t.bindingNamesWithin levels child = t.bindingNamesWithin t.size child
    rw [hlevels]
    exact (ht.bindingNamesWithin_add hchild 1).symm

/-- The names of a pattern are those of its parts, in order. -/
theorem Proper.bindingNames_eq (ht : t.Proper) (p : NodeId) : t.bindingNames p =
    match t.tag p with
    | "Identifier" => (t.identifierName? p).toList
    | "ObjectPattern" => (t.present p "properties").flatMap t.memberNames
    | "ArrayPattern" => (t.present p "elements").flatMap t.bindingNames
    | "AssignmentPattern" => t.namesOf? (t.child? p "left")
    | "RestElement" => t.namesOf? (t.child? p "argument")
    | _ => [] := by
  by_cases htag : t.tag p = ""
  · rw [bindingNames, htag]
    cases t.size with
    | zero => rfl
    | succ levels =>
      rw [bindingNamesWithin, htag]
      rfl
  · obtain ⟨levels, hnames, hparts⟩ := ht.exists_levels htag
    rw [hnames, bindingNamesWithin]
    generalize t.tag p = tag
    simp only
    split
    · rfl
    · refine List.flatMap_congr fun member hmember => hparts _ fun child hchild => ?_
      have hlt := ht.lt_of_held (held_of_present hmember)
      split at hchild
      · exact Nat.lt_trans (ht.lt_of_held (held_of_child? hchild)) hlt
      · cases hchild
        exact hlt
    · refine List.flatMap_congr fun element helement => hparts (some element) fun child hchild => ?_
      cases hchild
      exact ht.lt_of_held (held_of_present helement)
    · exact hparts _ fun left hleft => ht.lt_of_held (held_of_child? hleft)
    · exact hparts _ fun argument hargument => ht.lt_of_held (held_of_child? hargument)
    · simp only [*]

/-- A rest element has the names of what it binds. -/
theorem Proper.bindingNames_rest (ht : t.Proper) (htag : t.tag p = "RestElement") {argument : NodeId}
    (hargument : t.child? p "argument" = some argument) : t.bindingNames p = t.bindingNames argument := by
  rw [ht.bindingNames_eq p]
  simp [htag, hargument]

end Tree

end ScriptCore

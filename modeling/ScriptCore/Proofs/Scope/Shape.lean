import ScriptCore.Proofs.Scope.Change

/-!
# Graphs of one shape

Writing cells that are there keeps the shape of a graph: the same scopes, with the same names, parents,
owners and flags. A declaration keeps it if the scope has the name already, and an assignment if it finds
the name on the lexical chain. Where an assignment finds none, it makes a cell, and that shows afterwards:
the scope of the assignment has a name that was not to be found from there before
(`ScopeGraph.sameShape_or_bound`).
-/
namespace ScriptCore.ScopeGraph

/-- The same scopes, each with the same shape. -/
structure SameShape (g g' : ScopeGraph) : Prop where
  size_eq : g'.size = g.size
  shape : ∀ s, (g.get s).SameShape (g'.get s)

/-- All scopes and names of a graph are there in a later one. -/
structure KeptIn (g g' : ScopeGraph) : Prop where
  size_le : g.size ≤ g'.size
  names : ∀ s, g.ownNames s ⊆ g'.ownNames s

variable {g g' g₁ g₂ g₃ : ScopeGraph} {s : ScopeId} {name : String}

namespace SameShape

theorem refl (g : ScopeGraph) : g.SameShape g := ⟨rfl, fun _ => .refl _⟩

theorem trans (h : g₁.SameShape g₂) (h' : g₂.SameShape g₃) : g₁.SameShape g₃ :=
  ⟨h'.size_eq.trans h.size_eq, fun s => (h.shape s).trans (h'.shape s)⟩

theorem ownNames_eq (h : g.SameShape g') (s : ScopeId) : g'.ownNames s = g.ownNames s :=
  (h.shape s).names

end SameShape

namespace KeptIn

theorem refl (g : ScopeGraph) : g.KeptIn g := ⟨Nat.le_refl _, fun _ _ => id⟩

theorem trans (h : g₁.KeptIn g₂) (h' : g₂.KeptIn g₃) : g₁.KeptIn g₃ :=
  ⟨Nat.le_trans h.size_le h'.size_le, fun s _ hname => h'.names s (h.names s hname)⟩

end KeptIn

theorem SameShape.keptIn (h : g.SameShape g') : g.KeptIn g' :=
  ⟨Nat.le_of_eq h.size_eq.symm, fun s _ hname => (h.ownNames_eq s).symm ▸ hname⟩

theorem hasOwn_iff : g.hasOwn s name = true ↔ name ∈ g.ownNames s := Dict.contains_iff _ _

/-- Only a scope that there is has names. -/
theorem lt_size_of_own (h : name ∈ g.ownNames s) : s < g.size := by
  refine Nat.lt_of_not_le fun hs => ?_
  have hget : g.get s = {} := by rw [get, Array.getElem?_eq_none hs, Option.getD_none]
  rw [ownNames, hget] at h
  cases h

/-! ## Declarations -/

/-- A name that the scope has. -/
theorem sameShape_declare_own (value : Value) (h : name ∈ g.ownNames s) :
    g.SameShape (g.declare s name value) := by
  have hcell : ((g.get s).cells.get? name).isSome = true := hasOwn_iff.mpr h
  obtain ⟨old, hold⟩ := Option.isSome_iff_exists.mp hcell
  exact ⟨size_modify _ _ _, fun t => sameShape_declare value hold⟩

/-- Whatever is declared, the names that there are stay. -/
theorem ownNames_prefix_declare (g : ScopeGraph) (s : ScopeId) (name : String) (value : Value) (t : ScopeId) :
    g.ownNames t <+: (g.declare s name value).ownNames t := by
  rw [ownNames, ownNames, declare, get_modify]
  split
  · rw [Dict.keys_insert]
    split
    · exact List.prefix_refl _
    · exact List.prefix_append _ _
  · exact List.prefix_refl _

theorem keptIn_declare (g : ScopeGraph) (s : ScopeId) (name : String) (value : Value) :
    g.KeptIn (g.declare s name value) :=
  ⟨Nat.le_of_eq (size_modify _ _ _).symm, fun t => (ownNames_prefix_declare g s name value t).subset⟩

/-- A declared name is one of a scope that there is. -/
theorem mem_ownNames_declare (hs : s < g.size) (name : String) (value : Value) :
    name ∈ (g.declare s name value).ownNames s := by
  rw [ownNames, declare, get_modify, if_pos ⟨rfl, hs⟩, Dict.keys_insert]
  split
  next h => exact h
  · exact List.mem_append_right _ (List.mem_singleton_self _)

/-- In a scope that there is not, nothing is declared. -/
theorem sameShape_declare_of_le (hs : g.size ≤ s) (name : String) (value : Value) :
    g.SameShape (g.declare s name value) := by
  refine ⟨size_modify _ _ _, fun t => ?_⟩
  rw [declare, get_modify, if_neg]
  · exact .refl _
  · rintro ⟨rfl, ht⟩
    exact Nat.not_lt.mpr hs ht

/-! ## Assignments -/

theorem resolveWithin_isSome_of_shape (h : g.SameShape g') (fuel : Nat) (s : ScopeId) :
    (g'.resolveWithin name fuel s).isSome = (g.resolveWithin name fuel s).isSome := by
  induction fuel generalizing s with
  | zero => rfl
  | succ fuel ih =>
    have hown : (g'.get s).cells.contains name = (g.get s).cells.contains name := by
      rw [Bool.eq_iff_iff, Dict.contains_iff, Dict.contains_iff, (h.shape s).names]
    rw [Dict.contains, Dict.contains] at hown
    rw [resolveWithin, resolveWithin]
    cases hcell : (g.get s).cells.get? name with
    | some value =>
      obtain ⟨value', hcell'⟩ := Option.isSome_iff_exists.mp (hown.trans (by rw [hcell]; rfl))
      rw [hcell']
      rfl
    | none =>
      have hcell' : (g'.get s).cells.get? name = none := by
        rw [hcell] at hown
        exact Option.not_isSome_iff_eq_none.mp (by simp [hown])
      rw [hcell', (h.shape s).parent]
      cases (g.get s).parent with
      | none => rfl
      | some p => exact ih p

/-- Names are found from the same scopes. -/
theorem SameShape.resolve?_isSome (h : g.SameShape g') (s : ScopeId) (name : String) :
    (g'.resolve? s name).isSome = (g.resolve? s name).isSome := by
  rw [resolve?, resolve?, h.size_eq]
  exact resolveWithin_isSome_of_shape h g.size s

/-- A scope's own names are found from there. -/
theorem resolve?_isSome_of_own (h : name ∈ g.ownNames s) : (g.resolve? s name).isSome = true := by
  have hcell : ((g.get s).cells.get? name).isSome = true := hasOwn_iff.mpr h
  obtain ⟨value, hvalue⟩ := Option.isSome_iff_exists.mp hcell
  have hs : 0 < g.size := Nat.lt_of_le_of_lt (Nat.zero_le s) (lt_size_of_own h)
  obtain ⟨fuel, hfuel⟩ := Nat.exists_eq_add_of_lt hs
  rw [resolve?, hfuel, resolveWithin, hvalue]
  rfl

theorem sameShape_set (value : Value) (h : (g.resolve? s name).isSome = true) :
    g.SameShape (g.set s name value) := by
  obtain ⟨⟨owner, old⟩, hfound⟩ := Option.isSome_iff_exists.mp h
  rw [set, hfound]
  exact ⟨size_modify _ _ _, fun t => sameShape_declare value (resolveWithin_spec hfound).1⟩

theorem set_of_unfound (value : Value) (h : g.resolve? s name = none) :
    g.set s name value = g.declare s name value := by rw [set, h]

/-- Writes that keep the shape, and assignments to the given name in the given scope. -/
def Writes (assignee : Option (ScopeId × String)) (g g' : ScopeGraph) : Prop :=
  g.SameShape g' ∨ ∃ s name value, assignee = some (s, name) ∧ g' = g.set s name value

theorem Writes.keptIn {assignee : Option (ScopeId × String)} (h : Writes assignee g g') : g.KeptIn g' := by
  obtain h | ⟨s, name, value, -, rfl⟩ := h
  · exact h.keptIn
  · rw [set]
    split
    · exact keptIn_declare _ _ _ _
    · exact keptIn_declare _ _ _ _

/-- **After any number of writes**, the graph has the shape that it had, or a name was assigned to that
was not to be found, and is the scope's own since. -/
theorem sameShape_or_bound {assignee : Option (ScopeId × String)}
    (h : Relation.ReflTransGen (Writes assignee) g g') :
    g.SameShape g' ∨ ∃ s name, assignee = some (s, name) ∧ g.resolve? s name = none ∧
      name ∈ g'.ownNames s := by
  induction h with
  | refl => exact Or.inl (.refl _)
  | @tail g₁ g₂ hsteps hstep ih =>
    obtain hshape | ⟨s, name, value, hassignee, rfl⟩ := hstep
    · obtain ih | ⟨s, name, hassignee, hnone, hmem⟩ := ih
      · exact Or.inl (ih.trans hshape)
      · exact Or.inr ⟨s, name, hassignee, hnone, by rwa [hshape.ownNames_eq]⟩
    · cases hfound : g₁.resolve? s name with
      | some found =>
        have hshape : g₁.SameShape (g₁.set s name value) := sameShape_set value (by rw [hfound]; rfl)
        obtain ih | ⟨t, other, hassignee', hnone, hmem⟩ := ih
        · exact Or.inl (ih.trans hshape)
        · exact Or.inr ⟨t, other, hassignee', hnone, by rwa [hshape.ownNames_eq]⟩
      | none =>
        rw [set_of_unfound value hfound]
        obtain ih | ⟨t, other, hassignee', hnone, hmem⟩ := ih
        · have hunfound : g.resolve? s name = none := by
            have hsame := ih.resolve?_isSome s name
            rw [hfound] at hsame
            exact Option.isNone_iff_eq_none.mp (by simpa using hsame)
          by_cases hs : s < g₁.size
          · exact Or.inr ⟨s, name, hassignee, hunfound, mem_ownNames_declare hs name value⟩
          · exact Or.inl (ih.trans (sameShape_declare_of_le (Nat.not_lt.mp hs) name value))
        · rw [hassignee] at hassignee'
          cases hassignee'
          have hown := resolve?_isSome_of_own hmem
          rw [hfound] at hown
          cases hown

end ScriptCore.ScopeGraph

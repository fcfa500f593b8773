import ScriptCore.Tree.Import

/-!
# Imports that succeed

What an import does with a value it accepts, without the paths that only errors name: `ReadsFields` and
its companions have one constructor for each thing that members, list elements and nodes can be. An
accepted value is read in such a way (`reads_of_ofJson`), so that what is said of imported trees is said
by induction on readings.
-/
namespace ScriptCore

/-- Names with a dot after each. -/
def dotted : List String → String
  | [] => ""
  | name :: rest => name ++ "." ++ dotted rest

theorem dotted_concat (names : List String) (name : String) :
    dotted (names ++ [name]) = dotted names ++ name ++ "." := by
  induction names with
  | nil => simp [dotted]
  | cons first rest ih =>
    rw [List.cons_append, dotted, ih, dotted]
    simp only [String.append_assoc]

namespace Import

/-- Members that give no fields: those that are dropped, and the `type` of a node. -/
def leftOut (name : String) : Bool := name == "type" || droppedKeys.contains name

/-- The field that a scalar becomes. -/
def scalar? : Json → Option Field
  | .null => some .null
  | .bool value => some (.bool value)
  | .integer value => some (.num (Numeric.ofInt value))
  | .number value => some (.num value)
  | .string value => some (.str value)
  | _ => none

mutual

/-- Reading the members of an object with the given dotted name takes a builder to another, and gives
fields. -/
inductive ReadsFields : String → List (String × Json) → TreeBuilder → List (String × Field) →
    TreeBuilder → Prop
  | nil (keyPrefix : String) (b : TreeBuilder) : ReadsFields keyPrefix [] b [] b
  | skip {keyPrefix name : String} {value : Json} {rest : List (String × Json)} {b b' : TreeBuilder}
    {fields : List (String × Field)} (hout : leftOut name = true)
    (hrest : ReadsFields keyPrefix rest b fields b') :
    ReadsFields keyPrefix ((name, value) :: rest) b fields b'
  | cons {keyPrefix name : String} {value : Json} {rest : List (String × Json)}
    {b b₁ b' : TreeBuilder} {first others : List (String × Field)} (hin : leftOut name = false)
    (hfirst : ReadsField (keyPrefix ++ name) value b first b₁)
    (hrest : ReadsFields keyPrefix rest b₁ others b') :
    ReadsFields keyPrefix ((name, value) :: rest) b (first ++ others) b'

/-- Reading one member, under its dotted name. -/
inductive ReadsField : String → Json → TreeBuilder → List (String × Field) → TreeBuilder → Prop
  | scalar {key : String} {value : Json} {field : Field} (h : scalar? value = some field)
    (b : TreeBuilder) : ReadsField key value b [(key, field)] b
  | list {key : String} {items : List Json} {b b' : TreeBuilder} {ids : List (Option NodeId)}
    (hitems : ReadsItems items b ids b') : ReadsField key (.array items) b [(key, .list ids)] b'
  | node {key : String} {members : List (String × Json)} {b b' : TreeBuilder} {id : NodeId}
    (hnode : ReadsNode members b id b') : ReadsField key (.object members) b [(key, .node id)] b'
  | plain {key : String} {members : List (String × Json)} {b b' : TreeBuilder}
    {fields : List (String × Field)} (hrole : lookupEntry "type" members = none)
    (hfields : ReadsFields (key ++ ".") members b fields b') :
    ReadsField key (.object members) b fields b'

/-- Reading the elements of a list. -/
inductive ReadsItems : List Json → TreeBuilder → List (Option NodeId) → TreeBuilder → Prop
  | nil (b : TreeBuilder) : ReadsItems [] b [] b
  | hole {rest : List Json} {b b' : TreeBuilder} {ids : List (Option NodeId)}
    (hrest : ReadsItems rest b ids b') : ReadsItems (.null :: rest) b (none :: ids) b'
  | node {members : List (String × Json)} {rest : List Json} {b b₁ b' : TreeBuilder} {id : NodeId}
    {ids : List (Option NodeId)} (hnode : ReadsNode members b id b₁)
    (hrest : ReadsItems rest b₁ ids b') :
    ReadsItems (.object members :: rest) b (some id :: ids) b'

/-- Reading the members of a node, and adding it. -/
inductive ReadsNode : List (String × Json) → TreeBuilder → NodeId → TreeBuilder → Prop
  | add {members : List (String × Json)} {b b' : TreeBuilder} {tag : String}
    {fields : List (String × Field)} (htag : lookupEntry "type" members = some (.string tag))
    (hfields : ReadsFields "" members b fields b') :
    ReadsNode members b (b'.add tag fields).1 (b'.add tag fields).2

end

/-! ## Every import that succeeds -/

theorem role_eq_node {members : List (String × Json)} {tag : String} (h : role members = .node tag) :
    lookupEntry "type" members = some (.string tag) := by
  unfold role at h
  split at h
  next found heq =>
    cases h
    exact heq
  · cases h
  · cases h

theorem role_eq_plain {members : List (String × Json)} (h : role members = .plain) :
    lookupEntry "type" members = none := by
  unfold role at h
  split at h
  · cases h
  · cases h
  · assumption

/-- Beyond a node's own `type`, the dotted name does not matter: a plain object has no `type`. -/
theorem isDropped_eq_leftOut {keyPrefix name : String} (h : keyPrefix = "" ∨ name ≠ "type") :
    isDropped keyPrefix name = leftOut name := by
  rw [isDropped, leftOut]
  rcases h with h | h
  · rw [h]
    rfl
  · rw [beq_eq_false_iff_ne.mpr h, Bool.and_false]

theorem reads_of_close {members : List (String × Json)} {tag : String} {b b' : TreeBuilder} {id : NodeId}
    {read : Result (List (String × Field))} (htag : role members = .node tag)
    (hread : ∀ fields b₁, read = .ok (fields, b₁) → ReadsFields "" members b fields b₁)
    (h : close tag read = .ok (id, b')) : ReadsNode members b id b' := by
  cases read with
  | error e => cases h
  | ok r =>
    obtain ⟨fields, b₁⟩ := r
    cases h
    exact .add (role_eq_node htag) (hread fields b₁ rfl)

mutual

theorem reads_of_addFields (path keyPrefix : String) :
    ∀ (members : List (String × Json)) (b b' : TreeBuilder) (fields : List (String × Field)),
      keyPrefix = "" ∨ lookupEntry "type" members = none →
        addFields path keyPrefix members b = .ok (fields, b') →
          ReadsFields keyPrefix members b fields b'
  | [], b, b', fields, _, h => by
    rw [addFields] at h
    cases h
    exact .nil keyPrefix b
  | (name, value) :: rest, b, b', fields, hkey, h => by
    have hname : keyPrefix = "" ∨ name ≠ "type" := by
      refine hkey.imp_right fun hnone heq => ?_
      simp [lookupEntry, heq] at hnone
    have hrest : keyPrefix = "" ∨ lookupEntry "type" rest = none := by
      refine hkey.imp_right fun hnone => ?_
      rw [lookupEntry] at hnone
      split at hnone
      · cases hnone
      · exact hnone
    rw [addFields, isDropped_eq_leftOut hname] at h
    split at h
    next hout => exact .skip hout (reads_of_addFields path keyPrefix rest b b' fields hrest h)
    next hin =>
      split at h
      · cases h
      next first b₁ hfirst =>
        split at h
        · cases h
        next others b₂ hothers =>
          cases h
          exact .cons (Bool.eq_false_iff.mpr hin) (reads_of_addField _ _ value b b₁ first hfirst)
            (reads_of_addFields path keyPrefix rest b₁ b' others hrest hothers)

theorem reads_of_addField (path key : String) :
    ∀ (value : Json) (b b' : TreeBuilder) (fields : List (String × Field)),
      addField path key value b = .ok (fields, b') → ReadsField key value b fields b'
  | .null, b, _, _, h | .bool _, b, _, _, h | .integer _, b, _, _, h | .number _, b, _, _, h
  | .string _, b, _, _, h => by
    rw [addField] at h
    cases h
    exact .scalar rfl b
  | .array items, b, b', fields, h => by
    rw [addField] at h
    split at h
    next ids b₁ hids =>
      cases h
      exact .list (reads_of_addItems path 0 items b b' ids hids)
    · cases h
  | .object members, b, b', fields, h => by
    rw [addField] at h
    split at h
    next tag htag =>
      split at h
      next id b₁ hid =>
        cases h
        exact .node (reads_of_close htag
          (fun fields b₂ => reads_of_addFields path "" members b b₂ fields (Or.inl rfl)) hid)
      · cases h
    · cases h
    next hplain =>
      have hnone := role_eq_plain hplain
      exact .plain hnone (reads_of_addFields path (key ++ ".") members b b' fields (Or.inr hnone) h)

theorem reads_of_addItems (path : String) (index : Nat) :
    ∀ (items : List Json) (b b' : TreeBuilder) (ids : List (Option NodeId)),
      addItems path index items b = .ok (ids, b') → ReadsItems items b ids b'
  | [], b, b', ids, h => by
    rw [addItems] at h
    cases h
    exact .nil b
  | item :: rest, b, b', ids, h => by
    rw [addItems] at h
    split at h
    · cases h
    next id b₁ hid =>
      split at h
      · cases h
      next others b₂ hothers =>
        cases h
        exact reads_of_addItem (itemPath path index) item b b₁ id hid
          (reads_of_addItems path (index + 1) rest b₁ b' others hothers)

theorem reads_of_addItem (path : String) :
    ∀ (item : Json) (b b₁ : TreeBuilder) (id : Option NodeId), addItem path item b = .ok (id, b₁) →
      ∀ {rest : List Json} {b' : TreeBuilder} {ids : List (Option NodeId)},
        ReadsItems rest b₁ ids b' → ReadsItems (item :: rest) b (id :: ids) b'
  | .null, b, b₁, id, h, _, _, _, hrest => by
    rw [addItem] at h
    cases h
    exact .hole hrest
  | .bool _, _, _, _, h, _, _, _, _ | .integer _, _, _, _, h, _, _, _, _
  | .number _, _, _, _, h, _, _, _, _ | .string _, _, _, _, h, _, _, _, _
  | .array _, _, _, _, h, _, _, _, _ => by
    simp [addItem] at h
  | .object members, b, b₁, id, h, _, _, _, hrest => by
    rw [addItem] at h
    split at h
    next tag htag =>
      split at h
      next id b₂ hid =>
        cases h
        exact .node (reads_of_close htag
          (fun fields b₃ => reads_of_addFields path "" members b b₃ fields (Or.inl rfl)) hid) hrest
      · cases h
    · cases h

end

/-- An import that succeeds reads an object as a node, in an empty builder. -/
theorem reads_of_ofJson {j : Json} {t : Tree} (h : Tree.ofJson j = .ok t) :
    ∃ members b, j = .object members ∧ ReadsNode members {} t.root b ∧ t = b.finish t.root := by
  rw [Tree.ofJson] at h
  split at h
  next root b hroot =>
    cases h
    unfold addRoot at hroot
    split at hroot
    next members =>
      split at hroot
      next tag htag =>
        exact ⟨members, b, rfl, reads_of_close htag
          (fun fields b₁ => reads_of_addFields "$" "" members {} b₁ fields (Or.inl rfl)) hroot, rfl⟩
      · cases hroot
    · cases hroot
  · cases h

end Import

end ScriptCore

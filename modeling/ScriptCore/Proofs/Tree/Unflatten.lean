import ScriptCore.Proofs.Json.Essence
import ScriptCore.Proofs.Tree.Postorder

/-!
# Trees as values again

An import depends on nothing that it drops (`ofJson_withoutDropped`), and loses nothing else: reading
dotted field names as paths, a tree gives back the essence of the value that it was imported from
(`toJson_ofJson`). So values with one tree are the same in essence.
-/
namespace ScriptCore

/-! ## What is dropped -/

mutual

/-- The value without the members that an import drops, at every depth. -/
def Json.withoutDropped : Json → Json
  | .array items => .array (Json.withoutDroppedItems items)
  | .object members => .object (Json.withoutDroppedMembers members)
  | j => j

def Json.withoutDroppedItems : List Json → List Json
  | [] => []
  | item :: rest => item.withoutDropped :: Json.withoutDroppedItems rest

def Json.withoutDroppedMembers : List (String × Json) → List (String × Json)
  | [] => []
  | (name, value) :: rest =>
    if Import.droppedKeys.contains name then Json.withoutDroppedMembers rest
    else (name, value.withoutDropped) :: Json.withoutDroppedMembers rest

end

namespace Import

theorem lookupEntry_type_withoutDropped (members : List (String × Json)) :
    lookupEntry "type" (Json.withoutDroppedMembers members) =
      (lookupEntry "type" members).map Json.withoutDropped := by
  induction members with
  | nil => rfl
  | cons member rest ih =>
    obtain ⟨name, value⟩ := member
    rw [Json.withoutDroppedMembers, lookupEntry]
    by_cases hdropped : droppedKeys.contains name = true
    · have hne : name ≠ "type" := by
        rintro rfl
        revert hdropped
        decide
      rw [if_pos hdropped, if_neg hne, ih]
    · rw [if_neg hdropped, lookupEntry]
      split
      · rfl
      · exact ih

theorem role_withoutDropped (members : List (String × Json)) :
    role (Json.withoutDroppedMembers members) = role members := by
  rw [role, role, lookupEntry_type_withoutDropped]
  cases lookupEntry "type" members with
  | none => rfl
  | some kind => cases kind <;> rfl

mutual

theorem addFields_withoutDropped (path keyPrefix : String) :
    ∀ (members : List (String × Json)) (b : TreeBuilder),
      addFields path keyPrefix (Json.withoutDroppedMembers members) b = addFields path keyPrefix members b
  | [], _ => rfl
  | (name, value) :: rest, b => by
    rw [Json.withoutDroppedMembers, addFields]
    by_cases hdropped : droppedKeys.contains name = true
    · have hout : isDropped keyPrefix name = true := by rw [isDropped, hdropped, Bool.or_true]
      rw [if_pos hdropped, if_pos hout]
      exact addFields_withoutDropped path keyPrefix rest b
    · rw [if_neg hdropped, addFields]
      split
      · exact addFields_withoutDropped path keyPrefix rest b
      · rw [addField_withoutDropped _ _ value b]
        split
        · rfl
        next fields b₁ _ => rw [addFields_withoutDropped path keyPrefix rest b₁]

theorem addField_withoutDropped (path key : String) : ∀ (value : Json) (b : TreeBuilder),
    addField path key value.withoutDropped b = addField path key value b
  | .array items, b => by
    rw [Json.withoutDropped, addField, addField, addItems_withoutDropped path 0 items b]
  | .object members, b => by
    rw [Json.withoutDropped, addField, addField, role_withoutDropped]
    split
    · rw [addFields_withoutDropped path "" members b]
    · rfl
    · exact addFields_withoutDropped path (key ++ ".") members b
  | .null, _ | .bool _, _ | .integer _, _ | .number _, _ | .string _, _ => rfl

theorem addItems_withoutDropped (path : String) (index : Nat) : ∀ (items : List Json) (b : TreeBuilder),
    addItems path index (Json.withoutDroppedItems items) b = addItems path index items b
  | [], _ => rfl
  | item :: rest, b => by
    rw [Json.withoutDroppedItems, addItems, addItems, addItem_withoutDropped _ item b]
    split
    · rfl
    next id b₁ _ => rw [addItems_withoutDropped path (index + 1) rest b₁]

theorem addItem_withoutDropped (path : String) : ∀ (item : Json) (b : TreeBuilder),
    addItem path item.withoutDropped b = addItem path item b
  | .object members, b => by
    rw [Json.withoutDropped, addItem, addItem, role_withoutDropped]
    split
    · rw [addFields_withoutDropped path "" members b]
    · rfl
  | .null, _ | .bool _, _ | .integer _, _ | .number _, _ | .string _, _ | .array _, _ => rfl

end

end Import

/-- An import does not depend on what it drops, whether it succeeds or fails. -/
theorem Tree.ofJson_withoutDropped (j : Json) : ofJson j.withoutDropped = ofJson j := by
  cases j with
  | object members =>
    have hroot : Import.addRoot (Json.object members).withoutDropped {} =
        Import.addRoot (.object members) {} := by
      rw [Json.withoutDropped, Import.addRoot, Import.addRoot, Import.role_withoutDropped]
      split
      · rw [Import.addFields_withoutDropped]
      · rfl
    rw [ofJson, hroot, ofJson]
  | _ => rfl

/-! ## Dotted names -/

/-- The names that a dotted name is made of. -/
def namesOf (key : String) : List String := (key.toList.splitOn '.').map String.ofList

/-- A dotted name is read as the names that it was made of. -/
theorem namesOf_dotted {names : List String} {name : String} (hnames : ∀ n ∈ names, '.' ∉ n.toList)
    (hname : '.' ∉ name.toList) : namesOf (dotted names ++ name) = names ++ [name] := by
  induction names with
  | nil => simp [namesOf, dotted, List.splitOn_eq_singleton hname]
  | cons first rest ih =>
    have hfirst := hnames first List.mem_cons_self
    have hrest := ih fun n hn => hnames n (List.mem_cons_of_mem first hn)
    have hsplit : (dotted (first :: rest) ++ name).toList =
        first.toList ++ '.' :: (dotted rest ++ name).toList := by
      simp [dotted, String.toList_append]
    rw [namesOf, hsplit, List.splitOn_append_cons_self_of_not_mem hfirst, List.map_cons, ← namesOf, hrest,
      String.ofList_toList, List.cons_append]

/-! ## Trees as values -/

/-- A field as a value, with the values of its nodes; `canon` says which doubles are taken for the same. -/
def Field.toJson (canon : Float → Float) (ofNode : NodeId → Json) : Field → Json
  | .node id => ofNode id
  | .list items => .array (items.map fun item => item.elim .null ofNode)
  | .str value => .string value
  | .num value => .number (canon value)
  | .bool value => .bool value
  | .null => .null

namespace Tree

/-- The value of a node, down to the given number of levels: its `type`, and its fields with dotted names
as paths. -/
def toJson (t : Tree) (canon : Float → Float) : Nat → NodeId → Json
  | 0, _ => .null
  | levels + 1, n => .object (("type", .string (t.tag n)) ::
      Json.unflatten ((t.node n).fields.map fun f => (namesOf f.1, f.2.toJson canon (t.toJson canon levels))))

end Tree

namespace Import

variable {canon : Float → Float}

/-- A field as the path of its name and a value. -/
def told (canon : Float → Float) (ofNode : NodeId → Json) (f : String × Field) : List String × Json :=
  (namesOf f.1, f.2.toJson canon ofNode)

/-- What stands in a value that is found under the given names. -/
def under (names : List String) (leaves : List (List String × Json)) : List (List String × Json) :=
  leaves.map fun leaf => (names ++ leaf.1, leaf.2)

theorem under_nil (leaves : List (List String × Json)) : under [] leaves = leaves := List.map_id' leaves

/-- The value of the node that was added last. -/
theorem toJson_add {b : TreeBuilder} {tag : String} {fields : List (String × Field)} {t : Tree}
    (h : (b.add tag fields).2.Starts t) (levels : Nat) :
    t.toJson canon (levels + 1) (b.add tag fields).1 = .object (("type", .string tag) ::
      Json.unflatten (fields.map (told canon (t.toJson canon levels)))) := by
  have hnode : t.node (b.add tag fields).1 = ⟨tag, fields⟩ := h.node_add
  rw [Tree.toJson, Tree.tag, hnode]
  rfl

theorem ReadsNode.leaves_eq {members : List (String × Json)} {b b' : TreeBuilder} {id : NodeId}
    (h : ReadsNode members b id b') :
    (Json.object members).leaves canon = [([], (Json.object members).essence canon)] := by
  cases h with
  | add htag _ => rw [Json.leaves, htag]

theorem toJson_of_scalar {value : Json} {field : Field} (h : scalar? value = some field)
    (ofNode : NodeId → Json) : value.leaves canon = [([], field.toJson canon ofNode)] := by
  cases value <;> cases h <;> rfl

mutual

theorem ReadsFields.told_eq {keyPrefix : String} {members : List (String × Json)} {b b' : TreeBuilder}
    {fields : List (String × Field)} {names : List String} :
    ReadsFields keyPrefix members b fields b' → keyPrefix = dotted names →
      (∀ n ∈ names, '.' ∉ n.toList) → Json.WellNamedMembers members →
        ∀ t, b'.Starts t → ∀ levels, b'.size ≤ levels →
          fields.map (told canon (t.toJson canon levels)) =
            under names (Json.leavesOfMembers canon members)
  | .nil _ _, _, _, _, _, _, _, _ => rfl
  | .skip hout hrest, hnamed, hnames, hwell, t, ht, levels, hlevels => by
    rw [Json.leavesOfMembers, if_pos hout]
    exact hrest.told_eq hnamed hnames hwell.2.2 t ht levels hlevels
  | .cons hin hfirst hrest, hnamed, hnames, hwell, t, ht, levels, hlevels => by
    have hle := Nat.le_trans hrest.lays.size_le hlevels
    rw [Json.leavesOfMembers, if_neg (Bool.eq_false_iff.mp hin), List.map_append,
      hfirst.told_eq (hnamed ▸ rfl) hnames hwell.1 hwell.2.1 t (hrest.lays.kept.trans ht) levels hle,
      hrest.told_eq hnamed hnames hwell.2.2 t ht levels hlevels, under, under, under, List.map_append]
    simp

theorem ReadsField.told_eq {key name : String} {value : Json} {b b' : TreeBuilder}
    {fields : List (String × Field)} {names : List String} :
    ReadsField key value b fields b' → key = dotted names ++ name →
      (∀ n ∈ names, '.' ∉ n.toList) → '.' ∉ name.toList → value.WellNamed →
        ∀ t, b'.Starts t → ∀ levels, b'.size ≤ levels →
          fields.map (told canon (t.toJson canon levels)) = under (names ++ [name]) (value.leaves canon)
  | .scalar h _, hkey, hnames, hname, _, t, _, levels, _ => by
    rw [toJson_of_scalar h (t.toJson canon levels), List.map_singleton, told, hkey,
      namesOf_dotted hnames hname, under, List.map_singleton, List.append_nil]
  | .list hitems, hkey, hnames, hname, hwell, t, ht, levels, hlevels => by
    have hvalues := hitems.toJson_eq hwell t ht levels hlevels
    rw [List.map_singleton, told, hkey, namesOf_dotted hnames hname, Field.toJson, hvalues]
    simp [under, Json.leaves, Json.essence]
  | .node hnode, hkey, hnames, hname, hwell, t, ht, levels, hlevels => by
    have hvalue := hnode.toJson_eq hwell t ht levels hlevels
    rw [List.map_singleton, told, hkey, namesOf_dotted hnames hname, Field.toJson, hvalue,
      hnode.leaves_eq]
    simp [under]
  | .plain hrole hfields, hkey, hnames, hname, hwell, t, ht, levels, hlevels => by
    have hall : ∀ n ∈ names ++ [name], '.' ∉ n.toList := by
      intro n hn
      rcases List.mem_append.mp hn with hn | hn
      · exact hnames n hn
      · rw [List.mem_singleton.mp hn]
        exact hname
    rw [Json.leaves, hrole]
    exact hfields.told_eq (by rw [dotted_concat, hkey]) hall hwell.2 t ht levels hlevels

theorem ReadsItems.toJson_eq {items : List Json} {b b' : TreeBuilder} {ids : List (Option NodeId)} :
    ReadsItems items b ids b' → Json.WellNamedItems items →
      ∀ t, b'.Starts t → ∀ levels, b'.size ≤ levels →
        ids.map (fun item => item.elim .null (t.toJson canon levels)) = Json.essenceOfItems canon items
  | .nil _, _, _, _, _, _ => rfl
  | .hole hrest, hwell, t, ht, levels, hlevels => by
    rw [List.map_cons, hrest.toJson_eq hwell.2 t ht levels hlevels]
    rfl
  | .node hnode hrest, hwell, t, ht, levels, hlevels => by
    have hle := Nat.le_trans hrest.lays.size_le hlevels
    rw [List.map_cons, hrest.toJson_eq hwell.2 t ht levels hlevels, Option.elim_some,
      hnode.toJson_eq hwell.1 t (hrest.lays.kept.trans ht) levels hle]
    rfl

theorem ReadsNode.toJson_eq {members : List (String × Json)} {b b' : TreeBuilder} {id : NodeId} :
    ReadsNode members b id b' → (Json.object members).WellNamed →
      ∀ t, b'.Starts t → ∀ levels, b'.size ≤ levels →
        t.toJson canon levels id = (Json.object members).essence canon
  | .add htag hfields, hwell, t, ht, levels, hlevels => by
    rw [TreeBuilder.size_add] at hlevels
    obtain ⟨k, rfl⟩ : ∃ k, levels = k + 1 := ⟨levels - 1, by omega⟩
    have hroot : "" = dotted [] := rfl
    have htold := hfields.told_eq hroot (fun _ hn => absurd hn List.not_mem_nil) hwell.2 t
      ((TreeBuilder.kept_add _ _ _).trans ht) k (Nat.le_of_succ_le_succ hlevels)
    rw [toJson_add ht, htold, under_nil, Json.unflatten_leaves hwell, Json.essence, htag]
    rfl

end

end Import

/-- A number, changed. -/
def Field.withNumbers (canon : Float → Float) : Field → Field
  | .num value => .num (canon value)
  | field => field

namespace Tree

variable {t t' : Tree} {j j' : Json}

/-- The tree with its numbers changed, such as to one of each that are taken for the same. -/
def withNumbers (t : Tree) (canon : Float → Float) : Tree :=
  { t with nodes := t.nodes.map fun n =>
      { n with fields := n.fields.map fun f => (f.1, f.2.withNumbers canon) } }

theorem toJson_withNumbers (t : Tree) (canon : Float → Float) (levels : Nat) (n : NodeId) :
    (t.withNumbers canon).toJson id levels n = t.toJson canon levels n := by
  induction levels generalizing n with
  | zero => rfl
  | succ levels ih =>
    have hnode : (t.withNumbers canon).node n =
        { t.node n with fields := (t.node n).fields.map fun f => (f.1, f.2.withNumbers canon) } := by
      rw [node, node, withNumbers, Array.getElem?_map]
      cases t.nodes[n]? <;> rfl
    have hrest : (t.withNumbers canon).toJson id levels = t.toJson canon levels := funext ih
    have hfield : ∀ f : Field, (f.withNumbers canon).toJson id (t.toJson canon levels) =
        f.toJson canon (t.toJson canon levels) := fun f => by cases f <;> rfl
    rw [toJson, toJson, tag, tag, hnode, hrest, List.map_map]
    simp only [Function.comp_def, hfield]

/-- A tree gives back the essence of what it was imported from. -/
theorem toJson_ofJson (canon : Float → Float) (hwell : j.WellNamed) (h : ofJson j = .ok t) :
    t.toJson canon t.size t.root = j.essence canon := by
  obtain ⟨members, b, rfl, hnode, ht⟩ := Import.reads_of_ofJson h
  have hnodes : t.nodes = b.nodes := by rw [ht, TreeBuilder.finish]
  exact hnode.toJson_eq hwell t (TreeBuilder.starts_of_eq hnodes) t.size
    (Nat.le_of_eq (congrArg Array.size hnodes).symm)

/-- Values with one tree, up to which doubles are taken for the same, have one essence. -/
theorem essence_eq (canon : Float → Float) (hwell : j.WellNamed) (hwell' : j'.WellNamed)
    (h : ofJson j = .ok t) (h' : ofJson j' = .ok t')
    (heq : t.withNumbers canon = t'.withNumbers canon) : j.essence canon = j'.essence canon := by
  have hsize : ∀ t : Tree, (t.withNumbers canon).size = t.size := fun t => Array.size_map
  have hroot : ∀ t : Tree, (t.withNumbers canon).root = t.root := fun _ => rfl
  calc j.essence canon
      = (t.withNumbers canon).toJson id (t.withNumbers canon).size (t.withNumbers canon).root := by
        rw [hsize, hroot, toJson_withNumbers, toJson_ofJson canon hwell h]
    _ = (t'.withNumbers canon).toJson id (t'.withNumbers canon).size (t'.withNumbers canon).root := by
        rw [heq]
    _ = j'.essence canon := by rw [hsize, hroot, toJson_withNumbers, toJson_ofJson canon hwell' h']

/-- **An import depends on nothing that it drops, and loses nothing else.** Without the members that are
dropped a value gives the same tree or the same error; and where names have no dots, a tree gives back
the essence of its value, so that values with one tree have one essence. -/
theorem import_keeps_essence :
    (∀ j, ofJson j.withoutDropped = ofJson j) ∧
    (∀ (canon : Float → Float) {j t}, j.WellNamed → ofJson j = .ok t →
      t.toJson canon t.size t.root = j.essence canon) ∧
    ∀ (canon : Float → Float) {j j' t t'}, j.WellNamed → j'.WellNamed → ofJson j = .ok t →
      ofJson j' = .ok t' → t.withNumbers canon = t'.withNumbers canon →
        j.essence canon = j'.essence canon :=
  ⟨ofJson_withoutDropped, fun canon _ _ => toJson_ofJson canon, fun canon _ _ _ _ => essence_eq canon⟩

/-- A template element with the place it stands at. -/
def placed : Json :=
  .object [("type", .string "TemplateElement"), ("range", .array [.integer 0, .integer 4]),
    ("value", .object [("raw", .string "a"), ("cooked", .object [("text", .string "a"), ("end", .null)])]),
    ("tail", .bool true)]

/-- The same element, written in another way. -/
def rewritten : Json :=
  .object [("value", .object [("raw", .string "a"), ("cooked", .object [("text", .string "a")]),
      ("extra", .object [("none", .object [])])]),
    ("tail", .bool true), ("type", .string "TemplateElement")]

/-- Both have one tree, and so one essence. -/
theorem import_keeps_essence_rewritten : ∃ t, ofJson placed = .ok t ∧ ofJson rewritten = .ok t ∧
    (placed.WellNamed ∧ rewritten.WellNamed) ∧ placed.essence id = rewritten.essence id ∧
    t.toJson id t.size t.root = rewritten.essence id := by
  obtain ⟨t, ht, -⟩ := exists_ofJson (j := placed) (p := fun t => t.size == 1) (by decide +kernel)
  have ht' : ofJson rewritten = .ok t := by
    rw [← ht]
    rfl
  have hplaced : placed.WellNamed := by
    simp [placed, Json.WellNamed, Json.WellNamedMembers, Json.WellNamedItems]
  have hrewritten : rewritten.WellNamed := by
    simp [rewritten, Json.WellNamed, Json.WellNamedMembers]
  exact ⟨t, ht, ht', ⟨hplaced, hrewritten⟩,
    import_keeps_essence.2.2 id hplaced hrewritten ht ht' rfl, import_keeps_essence.2.1 id hrewritten ht'⟩

end Tree

end ScriptCore

import ScriptCore.Proofs.Json.Path
import ScriptCore.Proofs.Tree.Reading

/-!
# Imports that fail

An import fails at the first value, in document order, that is wrong where it stands, and its error tells a path
to that value. Under members of a plain object the path repeats the names that lead to the object; a path with
no such member on it is the right one, and leads to the value (`import_fails_at`).
-/
namespace ScriptCore.Import

open Json (Access at? spell)

/-! ## Faults -/

/-- Where a value stands. -/
inductive Post where
  | root
  | member
  | element

/-- What is wrong with a value. -/
inductive Fault where
  | notANode
  | missingType
  | unsupportedListElement

/-- The error that tells a fault. -/
def Fault.error (path : String) : Fault → ImportError
  | .notANode => .notANode path
  | .missingType => .missingType path
  | .unsupportedListElement => .unsupportedListElement path

/-- The fault of a value that is used as a node, an object with a string as its `type`. -/
def nodeFault? (members : List (String × Json)) : Option Fault :=
  match lookupEntry "type" members with
  | some (.string _) => none
  | _ => some .missingType

/-- The fault of a value. The root is a node, a list holds nodes and holes, and a member is a node if it has a
`type`. -/
def fault? : Post → Json → Option Fault
  | .root, .object members => nodeFault? members
  | .root, _ => some .notANode
  | .member, .object members => if (lookupEntry "type" members).isSome then nodeFault? members else none
  | .member, _ => none
  | .element, .object members => nodeFault? members
  | .element, .null => none
  | .element, _ => some .unsupportedListElement

/-! ## Places -/

/-- A value inside another one, with the accesses that lead to it and those that an error would tell. -/
structure Place where
  way : List Access
  told : List Access
  post : Post
  value : Json

namespace Place

/-- The place in a value that holds the other one. -/
def under (p : Place) (access : Access) (told : List Access) : Place :=
  { p with way := access :: p.way, told := told ++ p.told }

/-- The error that an import which stands at `path` would end with at the place. -/
def error? (path : String) (p : Place) : Option ImportError :=
  (fault? p.post p.value).map fun fault => fault.error (path ++ spell p.told)

end Place

/-- The names that fields of an object begin with: those that led to it, if it is a plain one. -/
def heldNames (names : List String) (members : List (String × Json)) : List String :=
  if (lookupEntry "type" members).isSome then [] else names

mutual

/-- The places in a value, in document order, but for members that are left out. `names` are those that have led
to it since the last node or list. -/
def places (names : List String) (post : Post) : Json → List Place
  | .array items => ⟨[], [], post, .array items⟩ :: placesOfElements 0 items
  | .object members => ⟨[], [], post, .object members⟩ :: placesOfMembers (heldNames names members) members
  | j => [⟨[], [], post, j⟩]

def placesOfElements (index : Nat) : List Json → List Place
  | [] => []
  | item :: rest =>
    (places [] .element item).map (·.under (.element index) [.element index]) ++ placesOfElements (index + 1) rest

def placesOfMembers (names : List String) : List (String × Json) → List Place
  | [] => []
  | (name, value) :: rest =>
    (if leftOut name then [] else
      (places (names ++ [name]) .member value).map (·.under (.member name) ((names ++ [name]).map .member))) ++
      placesOfMembers names rest

end

/-- The places inside a value. -/
def inside (names : List String) : Json → List Place
  | .array items => placesOfElements 0 items
  | .object members => placesOfMembers (heldNames names members) members
  | _ => []

theorem places_eq (names : List String) (post : Post) (value : Json) :
    places names post value = ⟨[], [], post, value⟩ :: inside names value := by
  cases value <;> simp only [places, inside]

/-! ## Where an import fails -/

/-- A result is the given error, or there is no error. -/
def Meets {α : Type} (result : Result α) : Option ImportError → Prop
  | none => ∃ r, result = .ok r
  | some e => result = .error e

/-- The first error of places in an import that stands at `path`. -/
def firstError? (path : String) (ps : List Place) : Option ImportError := ps.findSome? (·.error? path)

theorem firstError?_under (path : String) (access : Access) (told : List Access) (ps : List Place) :
    firstError? path (ps.map (·.under access told)) = firstError? (path ++ spell told) ps := by
  have herror (p : Place) : (p.under access told).error? path = p.error? (path ++ spell told) := by
    rw [Place.error?, Place.error?, Place.under, Json.spell_append, String.append_assoc]
  rw [firstError?, firstError?, List.findSome?_map]
  exact congrArg (List.findSome? · ps) (funext herror)

/-- A field is told by its whole dotted name. -/
theorem spell_names (names : List String) (name : String) :
    spell ((names ++ [name]).map .member) = "." ++ dotted names ++ name := by
  induction names with
  | nil => simp [dotted, spell, Access.spell]
  | cons first rest ih =>
    rw [List.cons_append, List.map_cons, spell, ih, dotted, Access.spell]
    simp only [String.append_assoc]

theorem firstError?_cons (path : String) (p : Place) (ps : List Place) :
    firstError? path (p :: ps) = (p.error? path).or (firstError? path ps) := by
  rw [firstError?, List.findSome?_cons]
  cases p.error? path <;> rfl

theorem firstError?_append (path : String) (first rest : List Place) :
    firstError? path (first ++ rest) = (firstError? path first).or (firstError? path rest) :=
  List.findSome?_append

/-- A value that is wrong where it stands is what fails. -/
theorem meets_fault {α : Type} {value : Json} (post : Post) (fault : Fault) (path : String) (names : List String)
    (h : fault? post value = some fault) :
    Meets (.error (fault.error path) : Result α) (firstError? path (places names post value)) := by
  rw [places_eq, firstError?_cons, Place.error?, h, spell, String.append_empty]
  rfl

/-- A value that is right where it stands fails where something inside it does. -/
theorem firstError?_places {post : Post} {value : Json} (path : String) (names : List String)
    (h : fault? post value = none) :
    firstError? path (places names post value) = firstError? path (inside names value) := by
  rw [places_eq, firstError?_cons, Place.error?, h]
  rfl

/-! ## One step after another

The steps of an import are those of a computation that may fail. -/

/-- Of two steps the second one is taken if the first one does not fail. -/
theorem Meets.bind {α β : Type} {result : Result α} {next : α × TreeBuilder → Result β}
    {e? others : Option ImportError} (h : Meets result e?) (hnext : ∀ r, Meets (next r) others) :
    Meets (result.bind next) (e?.or others) := by
  cases e? with
  | some e =>
    have herror : result = .error e := h
    rw [herror]
    rfl
  | none =>
    obtain ⟨r, rfl⟩ := h
    exact hnext r

/-- A step that cannot fail adds no error. -/
theorem Meets.bind_ok {α β : Type} {result : Result α} {next : α × TreeBuilder → β × TreeBuilder}
    {e? : Option ImportError} (h : Meets result e?) : Meets (result.bind fun r => .ok (next r)) e? := by
  have hbind : Meets (result.bind fun r => .ok (next r)) (e?.or none) := h.bind fun r => ⟨next r, rfl⟩
  rwa [Option.or_none] at hbind

variable {path keyPrefix key name tag : String} {value item : Json} {members rest : List (String × Json)}
  {items : List Json} {index : Nat} {b : TreeBuilder} {post : Post} {names : List String}

theorem addFields_cons (h : isDropped keyPrefix name = false) :
    addFields path keyPrefix ((name, value) :: rest) b =
      (addField (path ++ "." ++ keyPrefix ++ name) (keyPrefix ++ name) value b).bind fun first =>
        (addFields path keyPrefix rest first.2).bind fun others => .ok (first.1 ++ others.1, others.2) := by
  rw [addFields, if_neg (Bool.eq_false_iff.mp h)]
  cases addField (path ++ "." ++ keyPrefix ++ name) (keyPrefix ++ name) value b with
  | error e => rfl
  | ok first =>
    obtain ⟨fields, b₁⟩ := first
    simp only [Except.bind]
    cases addFields path keyPrefix rest b₁ <;> rfl

theorem addItems_cons : addItems path index (item :: items) b =
    (addItem (itemPath path index) item b).bind fun first =>
      (addItems path (index + 1) items first.2).bind fun others => .ok (first.1 :: others.1, others.2) := by
  rw [addItems]
  cases addItem (itemPath path index) item b with
  | error e => rfl
  | ok first =>
    obtain ⟨id, b₁⟩ := first
    simp only [Except.bind]
    cases addItems path (index + 1) items b₁ <;> rfl

theorem addField_array : addField path key (.array items) b =
    (addItems path 0 items b).bind fun ids => .ok ([(key, .list ids.1)], ids.2) := by
  rw [addField]
  cases addItems path 0 items b <;> rfl

theorem addField_node (h : role members = .node tag) : addField path key (.object members) b =
    (close tag (addFields path "" members b)).bind fun id => .ok ([(key, .node id.1)], id.2) := by
  rw [addField, h]
  simp only
  cases close tag (addFields path "" members b) <;> rfl

theorem addItem_node (h : role members = .node tag) : addItem path (.object members) b =
    (close tag (addFields path "" members b)).bind fun id => .ok (some id.1, id.2) := by
  rw [addItem, h]
  simp only
  cases close tag (addFields path "" members b) <;> rfl

theorem close_eq (read : Result (List (String × Field))) :
    close tag read = read.bind fun fields => .ok (fields.2.add tag fields.1) := by
  cases read <;> rfl

/-- An object that is right as a node fails where its members do. -/
theorem meets_node (htag : role members = .node tag) (hpost : fault? post (.object members) = none)
    (h : Meets (addFields path "" members b) (firstError? path (placesOfMembers [] members))) :
    Meets (close tag (addFields path "" members b)) (firstError? path (places names post (.object members))) := by
  have hheld : heldNames names members = [] := by
    rw [heldNames, role_eq_node htag]
    rfl
  rw [firstError?_places path names hpost, inside, hheld, close_eq]
  exact h.bind_ok

theorem nodeFault?_of_node (h : role members = .node tag) : nodeFault? members = none := by
  rw [nodeFault?, role_eq_node h]

theorem nodeFault?_of_not_node (h : ∀ tag, role members ≠ .node tag) : nodeFault? members = some .missingType := by
  unfold nodeFault?
  split
  next tag htag =>
    have hrole : role members = .node tag := by rw [role, htag]
    exact absurd hrole (h tag)
  · rfl

mutual

/-- Fields fail at the first error among the places of the members. -/
theorem meets_addFields (path : String) (names : List String) :
    ∀ (members : List (String × Json)) (b : TreeBuilder), names = [] ∨ lookupEntry "type" members = none →
      Meets (addFields path (dotted names) members b) (firstError? path (placesOfMembers names members))
  | [], b, _ => ⟨_, rfl⟩
  | (name, value) :: rest, b, hnames => by
    have hname : dotted names = "" ∨ name ≠ "type" := by
      refine hnames.imp (fun hnil => ?_) fun hnone heq => ?_
      · rw [hnil]
        rfl
      · simp [lookupEntry, heq] at hnone
    have hrest : names = [] ∨ lookupEntry "type" rest = none := by
      refine hnames.imp_right fun hnone => ?_
      rw [lookupEntry] at hnone
      split at hnone
      · cases hnone
      · exact hnone
    have hothers := meets_addFields path names rest
    rw [placesOfMembers, firstError?_append]
    cases hout : leftOut name with
    | true =>
      rw [addFields, isDropped_eq_leftOut hname, if_pos hout]
      exact hothers b hrest
    | false =>
      have hvalue := meets_addField (path ++ spell ((names ++ [name]).map .member)) (names ++ [name])
        (dotted names ++ name) (dotted_concat names name).symm value b
      rw [addFields_cons (by rw [isDropped_eq_leftOut hname, hout]), if_neg Bool.false_ne_true, firstError?_under]
      rw [spell_names, ← String.append_assoc, ← String.append_assoc] at hvalue ⊢
      exact hvalue.bind fun first => (hothers first.2 hrest).bind_ok

/-- A member fails at the first error among its places. -/
theorem meets_addField (path : String) (names : List String) (key : String) (hkey : key ++ "." = dotted names) :
    ∀ (value : Json) (b : TreeBuilder),
      Meets (addField path key value b) (firstError? path (places names .member value))
  | .null, b | .bool _, b | .integer _, b | .number _, b | .string _, b => ⟨_, rfl⟩
  | .array items, b => by
    rw [addField_array, firstError?_places path names rfl]
    exact (meets_addItems path 0 items b).bind_ok
  | .object members, b => by
    cases hrole : role members with
    | node tag =>
      have hpost : fault? .member (.object members) = none := by
        rw [fault?, nodeFault?_of_node hrole, ite_self]
      rw [addField_node hrole]
      exact (meets_node hrole hpost (meets_addFields path [] members b (Or.inl rfl))).bind_ok
    | untagged =>
      have hpost : fault? .member (.object members) = some .missingType := by
        have htype : (lookupEntry "type" members).isSome = true := by
          cases hlookup : lookupEntry "type" members with
          | none => rw [role, hlookup] at hrole; cases hrole
          | some _ => rfl
        rw [fault?, if_pos htype, nodeFault?_of_not_node (by rw [hrole]; nofun)]
      rw [addField, hrole]
      exact meets_fault .member .missingType path names hpost
    | plain =>
      have hnone := role_eq_plain hrole
      have hpost : fault? .member (.object members) = none := by rw [fault?, hnone]; rfl
      have hheld : heldNames names members = names := by rw [heldNames, hnone]; rfl
      rw [addField, hrole, firstError?_places path names hpost, inside, hheld, hkey]
      exact meets_addFields path names members b (Or.inr hnone)

/-- A list fails at the first error among the places of its elements. -/
theorem meets_addItems (path : String) (index : Nat) :
    ∀ (items : List Json) (b : TreeBuilder),
      Meets (addItems path index items b) (firstError? path (placesOfElements index items))
  | [], b => ⟨_, rfl⟩
  | item :: rest, b => by
    have hspell : path ++ spell [.element index] = itemPath path index := by
      simp only [spell, Access.spell, itemPath, String.append_empty, String.append_assoc]
    rw [addItems_cons, placesOfElements, firstError?_append, firstError?_under, hspell]
    exact (meets_addItem (itemPath path index) item b).bind fun first =>
      (meets_addItems path (index + 1) rest first.2).bind_ok

/-- An element fails at the first error among its places. -/
theorem meets_addItem (path : String) :
    ∀ (item : Json) (b : TreeBuilder), Meets (addItem path item b) (firstError? path (places [] .element item))
  | .null, b => ⟨_, rfl⟩
  | .bool _, b | .integer _, b | .number _, b | .string _, b | .array _, b => by
    rw [addItem]
    · exact meets_fault .element .unsupportedListElement path [] rfl
    all_goals nofun
  | .object members, b => by
    cases hrole : role members with
    | node tag =>
      have hpost : fault? .element (.object members) = none := nodeFault?_of_node hrole
      rw [addItem_node hrole]
      exact (meets_node hrole hpost (meets_addFields path [] members b (Or.inl rfl))).bind_ok
    | _ =>
      rw [addItem, hrole]
      exact meets_fault .element .missingType path [] (nodeFault?_of_not_node (by rw [hrole]; nofun))

end

/-- The places of a whole value. -/
def placesOf (j : Json) : List Place := places [] .root j

theorem meets_addRoot (j : Json) (b : TreeBuilder) : Meets (addRoot j b) (firstError? "$" (placesOf j)) := by
  cases j with
  | object members =>
    cases hrole : role members with
    | node tag =>
      have hpost : fault? .root (.object members) = none := nodeFault?_of_node hrole
      rw [addRoot, hrole]
      exact meets_node hrole hpost (meets_addFields "$" [] members b (Or.inl rfl))
    | _ =>
      rw [addRoot, hrole]
      exact meets_fault .root .missingType "$" [] (nodeFault?_of_not_node (by rw [hrole]; nofun))
  | _ => exact meets_fault .root .notANode "$" [] rfl

/-- **An import fails at the first place that is wrong.** -/
theorem ofJson_error_iff {j : Json} {e : ImportError} :
    Tree.ofJson j = .error e ↔ firstError? "$" (placesOf j) = some e := by
  have hmeets := meets_addRoot j {}
  rw [Tree.ofJson]
  cases herror : firstError? "$" (placesOf j) with
  | none =>
    rw [herror] at hmeets
    obtain ⟨⟨root, b⟩, hok⟩ := hmeets
    simp [hok]
  | some e' =>
    rw [herror] at hmeets
    have herr : addRoot j {} = .error e' := hmeets
    simp [herr]

/-! ## Where the places are -/

variable {p : Place}

theorem mem_placesOfMembers : p ∈ placesOfMembers names members ↔
    ∃ name value, (name, value) ∈ members ∧ leftOut name = false ∧ ∃ q ∈ places (names ++ [name]) .member value,
      p = q.under (.member name) ((names ++ [name]).map .member) := by
  induction members with
  | nil => simp [placesOfMembers]
  | cons member rest ih =>
    obtain ⟨first, value⟩ := member
    rw [placesOfMembers, List.mem_append, ih]
    constructor
    · rintro (hfirst | ⟨name, other, hmem, hplace⟩)
      · split at hfirst
        · cases hfirst
        next hin =>
          obtain ⟨q, hq, rfl⟩ := List.mem_map.mp hfirst
          exact ⟨first, value, List.mem_cons_self, Bool.eq_false_iff.mpr hin, q, hq, rfl⟩
      · exact ⟨name, other, List.mem_cons_of_mem _ hmem, hplace⟩
    · rintro ⟨name, other, hmem, hin, q, hq, rfl⟩
      obtain heq | hmem := List.mem_cons.mp hmem
      · cases heq
        left
        rw [hin, if_neg Bool.false_ne_true]
        exact List.mem_map_of_mem hq
      · exact Or.inr ⟨name, other, hmem, hin, q, hq, rfl⟩

theorem mem_placesOfElements : p ∈ placesOfElements index items ↔
    ∃ i item, items[i]? = some item ∧ ∃ q ∈ places [] .element item,
      p = q.under (.element (index + i)) [.element (index + i)] := by
  induction items generalizing index with
  | nil => simp [placesOfElements]
  | cons first rest ih =>
    rw [placesOfElements, List.mem_append, ih]
    constructor
    · rintro (hfirst | ⟨i, item, hitem, q, hq, rfl⟩)
      · obtain ⟨q, hq, rfl⟩ := List.mem_map.mp hfirst
        exact ⟨0, first, rfl, q, hq, rfl⟩
      · exact ⟨i + 1, item, hitem, q, hq, by rw [Nat.add_assoc, Nat.add_comm 1]⟩
    · rintro ⟨i, item, hitem, q, hq, rfl⟩
      cases i with
      | zero =>
        cases hitem
        exact Or.inl (List.mem_map_of_mem hq)
      | succ i => exact Or.inr ⟨i, item, hitem, q, hq, by rw [Nat.add_assoc, Nat.add_comm 1]⟩

/-- What is said of all places in a value is said of the value itself, and passes from the places in a member or
an element to those in the value that holds it. -/
theorem forall_places {P : List String → Json → Place → Prop}
    (here : ∀ names post value, P names value ⟨[], [], post, value⟩)
    (member : ∀ names members name value p, (name, value) ∈ members → leftOut name = false →
      P (heldNames names members ++ [name]) value p →
        P names (.object members) (p.under (.member name) ((heldNames names members ++ [name]).map .member)))
    (element : ∀ names items index item p, items[index]? = some item → P [] item p →
      P names (.array items) (p.under (.element index) [.element index])) :
    ∀ (value : Json) (names : List String) (post : Post), ∀ p ∈ places names post value, P names value p
  | .object members, names, post, p, hp => by
    rw [places_eq] at hp
    obtain rfl | hp := List.mem_cons.mp hp
    · exact here names post _
    · obtain ⟨name, value, hmem, hin, q, hq, rfl⟩ := mem_placesOfMembers.mp hp
      exact member names members name value q hmem hin (forall_places here member element value _ _ q hq)
  | .array items, names, post, p, hp => by
    rw [places_eq] at hp
    obtain rfl | hp := List.mem_cons.mp hp
    · exact here names post _
    · obtain ⟨i, item, hitem, q, hq, rfl⟩ := mem_placesOfElements.mp hp
      rw [Nat.zero_add]
      exact element names items i item q hitem (forall_places here member element item _ _ q hq)
  | .null, names, post, p, hp | .bool _, names, post, p, hp | .integer _, names, post, p, hp
  | .number _, names, post, p, hp | .string _, names, post, p, hp => by
    obtain rfl := List.mem_singleton.mp hp
    exact here names post _
termination_by value => sizeOf value
decreasing_by
  · have hless := List.sizeOf_lt_of_mem hmem
    simp only [Prod.mk.sizeOf_spec, Json.object.sizeOf_spec] at hless ⊢
    omega
  · have hless := List.sizeOf_lt_of_mem (List.mem_of_getElem? hitem)
    simp only [Json.array.sizeOf_spec]
    omega

/-- A place is where its accesses lead. -/
theorem at?_way (value : Json) (names : List String) (post : Post) : ∀ p ∈ places names post value,
    value.Addressable → value.at? p.way = some p.value := by
  refine forall_places (P := fun _ value p => value.Addressable → value.at? p.way = some p.value)
    (fun names post value _ => by simp only [at?]) (fun names members name value p hmem hin ih h => ?_)
    (fun names items index item p hitem ih h => ?_) value names post
  · exact (Json.at?_member h.names hmem p.way).trans (ih (h.member hmem))
  · exact (Json.at?_element hitem p.way).trans (ih (h.element hitem))

/-- No place is in a member that is left out. -/
theorem leftOut_way (value : Json) (names : List String) (post : Post) : ∀ p ∈ places names post value,
    ∀ name, .member name ∈ p.way → leftOut name = false := by
  refine forall_places (P := fun _ _ p => ∀ name, .member name ∈ p.way → leftOut name = false)
    (fun names post value name h => by cases h) (fun names members first value p hmem hin ih name h => ?_)
    (fun names items index item p hitem ih name h => ?_) value names post
  · obtain heq | h := List.mem_cons.mp h
    · cases heq
      exact hin
    · exact ih name h
  · obtain heq | h := List.mem_cons.mp h
    · cases heq
    · exact ih name h

/-- What an error tells are names on the way and indices. -/
theorem plain_told (value : Json) (names : List String) (post : Post) : ∀ p ∈ places names post value,
    value.Addressable → (∀ name ∈ names, Json.IsPlainName name) → ∀ access ∈ p.told, access.IsPlain := by
  refine forall_places (P := fun names value p => value.Addressable → (∀ name ∈ names, Json.IsPlainName name) →
      ∀ access ∈ p.told, access.IsPlain)
    (fun names post value _ _ access h => by cases h) (fun names members name value p hmem hin ih h hnames => ?_)
    (fun names items index item p hitem ih h hnames => ?_) value names post
  · have hheld : ∀ held ∈ heldNames names members ++ [name], Json.IsPlainName held := by
      intro held hheld
      obtain hheld | hheld := List.mem_append.mp hheld
      · rw [heldNames] at hheld
        split at hheld
        · cases hheld
        · exact hnames held hheld
      · obtain rfl := List.mem_singleton.mp hheld
        exact h.plain hmem
    intro access haccess
    obtain hfirst | hrest := List.mem_append.mp haccess
    · obtain ⟨held, hmem, rfl⟩ := List.mem_map.mp hfirst
      exact hheld held hmem
    · exact ih (h.member hmem) hheld access hrest
  · intro access haccess
    obtain rfl | hrest := List.mem_cons.mp haccess
    · trivial
    · exact ih (h.element hitem) (by simp) access hrest

/-- No member of a plain object is on a path. -/
def SkirtsPlain (value : Json) (path : List Access) : Prop :=
  ∀ front name rest members, path = front ++ .member name :: rest → value.at? front = some (.object members) →
    (lookupEntry "type" members).isSome = true

/-- Unless it is under a member of a plain object, a place is told as it is. -/
theorem told_eq_way (value : Json) (names : List String) (post : Post) : ∀ p ∈ places names post value,
    value.Addressable → SkirtsPlain value p.way → p.told = p.way := by
  refine forall_places (P := fun _ value p => value.Addressable → SkirtsPlain value p.way → p.told = p.way)
    (fun names post value _ _ => rfl) (fun names members name value p hmem hin ih h hskirts => ?_)
    (fun names items index item p hitem ih h hskirts => ?_) value names post
  · have hheld : heldNames names members = [] := by
      rw [heldNames, if_pos (hskirts [] name p.way members rfl rfl)]
    have hrest : SkirtsPlain value p.way := fun front name' rest inner hway hinner =>
      hskirts (.member name :: front) name' rest inner (congrArg (Access.member name :: ·) hway)
        ((Json.at?_member h.names hmem front).trans hinner)
    rw [Place.under, hheld, ih (h.member hmem) hrest]
    rfl
  · have hrest : SkirtsPlain item p.way := fun front name' rest inner hway hinner =>
      hskirts (.element index :: front) name' rest inner (congrArg (Access.element index :: ·) hway)
        ((Json.at?_element hitem front).trans hinner)
    rw [Place.under, ih (h.element hitem) hrest]
    rfl

/-- Every value outside the members that are left out has a place. -/
theorem exists_place {way : List Access} {value found : Json} (hfound : value.at? way = some found)
    (hin : ∀ name, .member name ∈ way → leftOut name = false) (names : List String) (post : Post) :
    ∃ p ∈ places names post value, p.way = way ∧ p.value = found := by
  induction way generalizing value names post with
  | nil =>
    cases hfound
    exact ⟨⟨[], [], post, _⟩, by rw [places_eq]; exact List.mem_cons_self, rfl, rfl⟩
  | cons access way ih =>
    have hrest : ∀ name, .member name ∈ way → leftOut name = false := fun name h =>
      hin name (List.mem_cons_of_mem _ h)
    cases value with
    | object members =>
      cases access with
      | member name =>
        rw [at?] at hfound
        obtain ⟨inner, hlookup, hinner⟩ := Option.bind_eq_some_iff.mp hfound
        obtain ⟨q, hq, rfl, hvalue⟩ := ih hinner hrest (heldNames names members ++ [name]) .member
        refine ⟨q.under (.member name) ((heldNames names members ++ [name]).map .member), ?_, rfl, hvalue⟩
        rw [places_eq]
        exact List.mem_cons_of_mem _ (mem_placesOfMembers.mpr
          ⟨name, inner, mem_of_lookupEntry hlookup, hin name List.mem_cons_self, q, hq, rfl⟩)
      | element i => simp [at?] at hfound
    | array items =>
      cases access with
      | member name => simp [at?] at hfound
      | element i =>
        rw [at?] at hfound
        obtain ⟨inner, hitem, hinner⟩ := Option.bind_eq_some_iff.mp hfound
        obtain ⟨q, hq, rfl, hvalue⟩ := ih hinner hrest [] .element
        refine ⟨q.under (.element i) [.element i], ?_, rfl, hvalue⟩
        rw [places_eq]
        exact List.mem_cons_of_mem _ (mem_placesOfElements.mpr ⟨i, inner, hitem, q, hq, by rw [Nat.zero_add]⟩)
    | _ => simp [at?] at hfound

/-- **What an import error tells.** A rejected value has a first place, in document order, where it is wrong, and
every value outside the members that are left out has its place. The error says what is wrong there, and the
one path that can be read from its text is what it tells of the way to the place. If no member of a plain object
is on that way, then it is the way itself, and leads to what is wrong. -/
theorem import_fails_at {j : Json} (hj : j.Addressable) {e : ImportError} (h : Tree.ofJson j = .error e) :
    ∃ before p after fault, placesOf j = before ++ p :: after ∧ (∀ q ∈ before, fault? q.post q.value = none) ∧
      fault? p.post p.value = some fault ∧ e = fault.error ("$" ++ spell p.told) ∧
      j.at? p.way = some p.value ∧ (∀ name, .member name ∈ p.way → leftOut name = false) ∧
      (∀ way value, j.at? way = some value → (∀ name, .member name ∈ way → leftOut name = false) →
        ∃ q ∈ placesOf j, q.way = way ∧ q.value = value) ∧
      (∀ path, (∀ access ∈ path, access.IsPlain) → (spell path = spell p.told ↔ path = p.told)) ∧
      (SkirtsPlain j p.way → p.told = p.way) := by
  obtain ⟨before, p, after, hplaces, herror, hbefore⟩ := List.findSome?_eq_some_iff.mp (ofJson_error_iff.mp h)
  have hp : p ∈ places [] .root j := by
    rw [← placesOf, hplaces]
    exact List.mem_append_right _ List.mem_cons_self
  obtain ⟨fault, hfault, rfl⟩ := Option.map_eq_some_iff.mp herror
  have hplain := plain_told j [] .root p hp hj (by simp)
  refine ⟨before, p, after, fault, hplaces, fun q hq => Option.map_eq_none_iff.mp (hbefore q hq), hfault, rfl,
    at?_way j [] .root p hp hj, leftOut_way j [] .root p hp, fun way value hvalue hin => exists_place hvalue hin _ _,
    fun path hpath => ⟨fun htext => Json.spell_injective hpath hplain htext, fun heq => congrArg spell heq⟩,
    told_eq_way j [] .root p hp hj⟩

/-- A node with a scalar in a list. -/
def listJson : Json := .object [("type", .string "A"), ("x", .array [.bool true])]

/-- The only object in it is the node. -/
theorem object_in_listJson {path : List Access} {members : List (String × Json)}
    (h : listJson.at? path = some (.object members)) : listJson = .object members := by
  cases path with
  | nil => exact Option.some.inj h
  | cons access path =>
    cases access with
    | element i => simp [listJson, at?] at h
    | member name =>
      simp only [listJson, at?, lookupEntry] at h
      split at h
      · cases path <;> simp [at?] at h
      · split at h
        · -- in the list there is only a scalar
          obtain _ | ⟨access, path⟩ := path
          · simp [at?] at h
          · obtain _ | i := access
            · simp [at?] at h
            · obtain _ | i := i
              · cases path <;> simp [at?] at h
              · simp [at?] at h
        · simp at h

theorem addressable_listJson : listJson.Addressable := by
  intro path members h
  cases object_in_listJson h
  simp [Json.IsPlainName, Json.isPunctuation]

theorem import_fails_at_element : ∃ p ∈ placesOf listJson, listJson.at? p.way = some p.value ∧
    "$" ++ spell p.way = "$.x[0]" := by
  have herror : Tree.ofJson listJson = .error (.unsupportedListElement "$.x[0]") :=
    ofJson_error_iff.mpr (by decide +kernel)
  obtain ⟨before, p, after, fault, hplaces, -, -, htold, hvalue, -, -, -, hway⟩ :=
    import_fails_at addressable_listJson herror
  have hskirts : SkirtsPlain listJson p.way := fun _ _ _ members _ hmembers => by
    cases object_in_listJson hmembers
    rfl
  have hmem : p ∈ placesOf listJson := by simp [hplaces]
  refine ⟨p, hmem, hvalue, ?_⟩
  cases fault <;> simp only [Fault.error, ImportError.unsupportedListElement.injEq, reduceCtorEq] at htold
  rw [← hway hskirts, ← htold]

/-- A node with a scalar in a list, which is a member of a plain object. -/
def plainJson : Json := .object [("type", .string "A"), ("x", .object [("y", .array [.bool true])])]

/-- The path of the error leads nowhere, while the list holds what is wrong. -/
theorem path_repeats_names : Tree.ofJson plainJson = .error (.unsupportedListElement "$.x.x.y[0]") ∧
    (∀ path, (∀ access ∈ path, access.IsPlain) → "$" ++ spell path = "$.x.x.y[0]" → plainJson.at? path = none) ∧
    plainJson.at? [.member "x", .member "y", .element 0] = some (.bool true) := by
  refine ⟨ofJson_error_iff.mpr (by decide +kernel), fun path hpath htext => ?_, by simp [plainJson, at?, lookupEntry]⟩
  have htold : spell path = spell [.member "x", .member "x", .member "y", .element 0] := by
    have htext : "$" ++ spell path = "$" ++ spell [.member "x", .member "x", .member "y", .element 0] :=
      htext.trans (by decide +kernel)
    simpa using htext
  rw [Json.spell_injective hpath (by simp [Access.IsPlain, Json.IsPlainName, Json.isPunctuation]) htold]
  simp [plainJson, at?, lookupEntry]

end ScriptCore.Import

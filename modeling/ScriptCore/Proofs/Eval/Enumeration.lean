import Std.Data.String.ToNat
import ScriptCore.Eval.Expression
import ScriptCore.Proofs.Eval.PatternNames
import ScriptCore.Proofs.Eval.Asking
import ScriptCore.Proofs.Numeric.Whole
import ScriptCore.Text.IndexFacts

/-!
# Enumerating and spreading values

The keys of a value are enumerated by `for`-`in` and by spread, its elements by `for`-`of`, and single ones are
read under their keys. Arrays and strings are counted the same in all these ways, and the key at a position
reads the element there, as far as there are indices. An object has the fields that it enumerates, and
spreading it gives them again (`Evaluator.enumeration_agrees`).
-/
namespace ScriptCore

/-- Arrays and strings have elements, which are spread under their indices. -/
def Value.HasElements : Value → Prop
  | .array _ | .str _ => True
  | _ => False

namespace World

/-- Entries are the properties of a value under the given keys. -/
def ReadsAs (w : World) (value : Value) (keys : List String) (entries : List (String × Value)) : Prop :=
  List.Forall₂ (fun key entry => entry.1 = key ∧ w.getProperty value key = .ok entry.2) keys entries

/-- A value has the same properties in two worlds. -/
def SameProperties (value : Value) (w w' : World) : Prop :=
  w'.enumerableKeys value = w.enumerableKeys value ∧ w'.getProperty value = w.getProperty value

variable {w : World} {value : Value} {keys : List String} {entries entries' : List (String × Value)}

theorem ReadsAs.unique (h : w.ReadsAs value keys entries) (h' : w.ReadsAs value keys entries') :
    entries = entries' := by
  induction h generalizing entries' with
  | nil =>
    cases h'
    rfl
  | cons hentry _ ih =>
    cases h' with
    | cons hentry' hrest =>
      have hvalue := hentry.2.symm.trans hentry'.2
      rw [ih hrest, Prod.ext (hentry.1.trans hentry'.1.symm) (Except.ok.inj hvalue)]

theorem ReadsAs.filter (h : w.ReadsAs value keys entries) (keep : String → Bool) :
    w.ReadsAs value (keys.filter keep) (entries.filter fun entry => keep entry.1) := by
  induction h with
  | nil => exact .nil
  | cons hentry _ ih =>
    rw [List.filter_cons, List.filter_cons, hentry.1]
    split
    · exact .cons hentry ih
    · exact ih

/-- The fields of an object are its properties. -/
theorem readsAs_object (id : ObjectId) :
    w.ReadsAs (.object id) (w.object id).keys (w.object id).entries := by
  rw [ReadsAs, Dict.keys, List.forall₂_map_left_iff]
  refine List.forall₂_same.mpr fun entry hentry => ⟨rfl, ?_⟩
  rw [getProperty, Dict.get?_eq, lookupEntry_of_mem (w.object id).keys_nodup hentry]
  rfl

/-- The keys that are enumerated are distinct. -/
theorem nodup_enumerableKeys (w : World) (value : Value) : (w.enumerableKeys value).Nodup := by
  have hindices (count : Nat) : (indexKeys count).Nodup := List.nodup_range.map fun _ _ h => Nat.repr_injective h
  cases value with
  | object id => exact (w.object id).keys_nodup
  | array id => exact hindices _
  | str s => exact hindices _
  | _ => exact List.nodup_nil

theorem exists_getProperty (w : World) (h : value.isNullish = false) (key : String) :
    ∃ item, w.getProperty value key = .ok item := by
  cases value with
  | undefined => cases h
  | null => cases h
  | array id =>
    rw [getProperty]
    split <;> exact ⟨_, rfl⟩
  | str s =>
    rw [getProperty]
    split <;> exact ⟨_, rfl⟩
  | closure id =>
    rw [getProperty]
    repeat' split
    all_goals exact ⟨_, rfl⟩
  | _ => exact ⟨_, rfl⟩

/-- Properties that are copied under new keys come last. -/
theorem copy_readsAs {fields : Dict Value} (hnullish : value.isNullish = false)
    (hkeys : (fields.keys ++ keys).Nodup) :
    ∃ copied, keys.foldlM (fun fields key => (w.getProperty value key).map fun value => fields.insert key value)
        fields = .ok copied ∧
      ∃ entries, copied.entries = fields.entries ++ entries ∧ w.ReadsAs value keys entries := by
  induction keys generalizing fields with
  | nil => exact ⟨fields, rfl, [], (List.append_nil _).symm, .nil⟩
  | cons key rest ih =>
    obtain ⟨item, hitem⟩ := w.exists_getProperty hnullish key
    have hnew : key ∉ fields.keys := fun hmem =>
      (List.nodup_append.mp hkeys).2.2 key hmem key List.mem_cons_self rfl
    have hinserted : (fields.insert key item).entries = fields.entries ++ [(key, item)] := by
      rw [Dict.entries_insert, insertEntry_of_not_mem item hnew]
    -- the key is new, so its entry comes last and the other keys stay new
    have hnodup : ((fields.insert key item).keys ++ rest).Nodup := by
      rw [Dict.keys_insert, if_neg hnew, List.append_assoc]
      exact hkeys
    obtain ⟨copied, hcopied, entries, hentries, hreads⟩ := ih hnodup
    refine ⟨copied, ?_, (key, item) :: entries, ?_, .cons ⟨rfl, hitem⟩ hreads⟩
    · rw [List.foldlM_cons, hitem]
      exact hcopied
    · rw [hentries, hinserted, List.append_assoc]
      rfl

/-- Spreading a value gives its enumerable properties. -/
theorem spread_readsAs (w : World) (value : Value) : ∃ spread, Context.copyProperties w value ∅ = .ok spread ∧
    w.ReadsAs value (w.enumerableKeys value) spread.entries := by
  cases hnullish : value.isNullish with
  | true =>
    -- `undefined` and `null` have no keys, so nothing is read of them
    cases value with
    | undefined => exact ⟨∅, rfl, .nil⟩
    | null => exact ⟨∅, rfl, .nil⟩
    | _ => cases hnullish
  | false =>
    have hkeys : ((∅ : Dict Value).keys ++ w.enumerableKeys value).Nodup := w.nodup_enumerableKeys value
    obtain ⟨spread, hspread, entries, hentries, hreads⟩ := copy_readsAs hnullish hkeys
    refine ⟨spread, hspread, ?_⟩
    rw [hentries]
    exact hreads

/-- Spreading an object gives its fields. -/
theorem entries_of_spread {id : ObjectId} {spread : Dict Value}
    (h : Context.copyProperties w (.object id) ∅ = .ok spread) : spread.entries = (w.object id).entries := by
  obtain ⟨spread', hspread, hreads⟩ := w.spread_readsAs (.object id)
  cases h.symm.trans hspread
  exact hreads.unique (readsAs_object id)

/-! ## Elements -/

/-- What is iterated: the elements of an array, the characters of a string. -/
def elements (w : World) : Value → List Value
  | .array id => (w.array id).toList
  | .str s => characters s
  | _ => []

theorem iterate_eq (h : value.HasElements) : w.iterate value = .ok (w.elements value) := by
  cases value with
  | array id => rfl
  | str s => rfl
  | _ => exact h.elim

theorem enumerableKeys_eq (h : value.HasElements) :
    w.enumerableKeys value = indexKeys (w.elements value).length := by
  cases value with
  | array id => rfl
  | str s => simp only [enumerableKeys, elements, characters, List.length_map, String.length_toList]
  | _ => exact h.elim

theorem getProperty_length (h : value.HasElements) :
    w.getProperty value "length" = .ok (.number (Numeric.ofNat (w.elements value).length)) := by
  cases value with
  | array id => rfl
  | str s =>
    simp only [getProperty, if_true, elements, characters, List.length_map, String.length_toList]
  | _ => exact h.elim

/-- Under any other key than the length, the element at its index is read. -/
theorem getProperty_element {key : String} (h : value.HasElements) (hkey : key ≠ "length") :
    w.getProperty value key =
      .ok (((arrayIndex? key).bind fun index => (w.elements value)[index]?).getD .undefined) := by
  cases value with
  | array id => simp [getProperty, hkey, elements]
  | str s =>
    rw [getProperty, if_neg hkey]
    cases arrayIndex? key with
    | none => rfl
    | some index =>
      simp only [Option.bind_some, elements, characters, List.getElem?_map, Text.charAt?_eq]
      cases s.toList[index]? <;> rfl
  | _ => exact h.elim

theorem getProperty_index {key : String} {index : Nat} (h : value.HasElements) (hindex : IsIndex key index) :
    w.getProperty value key = .ok ((w.elements value)[index]?.getD .undefined) := by
  rw [getProperty_element h hindex.ne_length, arrayIndex?_eq_some_iff.mpr hindex, Option.bind_some]

/-- The ways to see the elements of a value agree. -/
structure Enumerates (w : World) (value : Value) (items : List Value) : Prop where
  iterate : w.iterate value = .ok items
  nodup : (w.enumerableKeys value).Nodup
  count : (w.enumerableKeys value).length = items.length
  length : w.getProperty value "length" = .ok (.number (Numeric.ofNat items.length))
  key : ∀ i < items.length, (w.enumerableKeys value)[i]? = some (toString i)
  /-- Each position that is an index has a key that reads the element, any other one a key that reads nothing. -/
  reads : ∀ i (h : i < items.length),
    w.getProperty value (toString i) = .ok (if i < 2 ^ 32 - 1 then items[i] else .undefined)
  others : ∀ key ∉ w.enumerableKeys value, key ≠ "length" → w.getProperty value key = .ok .undefined

theorem getElem?_indexKeys {count i : Nat} (h : i < count) : (indexKeys count)[i]? = some (toString i) := by
  simp [indexKeys, h]

theorem mem_indexKeys {count i : Nat} (h : i < count) : toString i ∈ indexKeys count :=
  List.mem_of_getElem? (getElem?_indexKeys h)

theorem toString_ne_length (i : Nat) : toString i ≠ "length" := by
  intro h
  have hdigits := Numeric.all_isDigit_naturalDigits i
  rw [← Numeric.toList_toString, h] at hdigits
  exact absurd hdigits (by decide)

theorem enumerates (w : World) (h : value.HasElements) : w.Enumerates value (w.elements value) where
  iterate := iterate_eq h
  nodup := w.nodup_enumerableKeys value
  count := by rw [enumerableKeys_eq h, indexKeys, List.length_map, List.length_range]
  length := getProperty_length h
  key i hi := by rw [enumerableKeys_eq h, getElem?_indexKeys hi]
  reads i hi := by
    split
    next hindex => rw [getProperty_index h ⟨hindex, rfl⟩, List.getElem?_eq_getElem hi, Option.getD_some]
    next hindex =>
      have hnone : arrayIndex? (toString i) = none := by
        refine Option.eq_none_iff_forall_ne_some.mpr fun index heq => ?_
        obtain ⟨hlt, hkey⟩ := arrayIndex?_eq_some_iff.mp heq
        exact hindex (Nat.repr_injective hkey ▸ hlt)
      rw [getProperty_element h (toString_ne_length i), hnone]
      rfl
  others key hkey hlength := by
    rw [enumerableKeys_eq h] at hkey
    rw [getProperty_element h hlength]
    cases hindex : arrayIndex? key with
    | none => rfl
    | some index =>
      obtain ⟨-, rfl⟩ := arrayIndex?_eq_some_iff.mp hindex
      have hend : (w.elements value)[index]? = none :=
        List.getElem?_eq_none (Nat.le_of_not_lt fun hlt => hkey (mem_indexKeys hlt))
      rw [Option.bind_some, hend]
      rfl

/-- A key reads the element at an index, of every array and of every string that has it. -/
def Addresses (key : String) (index : Nat) : Prop :=
  ∀ (w : World) (value : Value), value.HasElements → ∀ h : index < (w.elements value).length,
    w.getProperty value key = .ok (w.elements value)[index]

/-- A world with an array that holds `true` at one index and nothing before. -/
def markedWorld (index : Nat) : World where
  arrays := #[(List.replicate index Value.undefined ++ [Value.bool true]).toArray]

theorem elements_markedWorld (index : Nat) :
    (markedWorld index).elements (.array 0) = List.replicate index .undefined ++ [.bool true] := by
  simp [elements, array, markedWorld]

/-- The keys of elements are the canonical numerals of indices. -/
theorem addresses_iff {key : String} {index : Nat} : Addresses key index ↔ IsIndex key index := by
  constructor
  · intro h
    have harray : (Value.array 0).HasElements := trivial
    have hsize : index < ((markedWorld index).elements (.array 0)).length := by simp [elements_markedWorld]
    have hmark : ((markedWorld index).elements (.array 0))[index] = .bool true := by simp [elements_markedWorld]
    have hread := h (markedWorld index) (.array 0) harray hsize
    rw [hmark] at hread
    have hlength : key ≠ "length" := by
      rintro rfl
      rw [getProperty_length harray] at hread
      cases hread
    -- the element that is read is the only one that is not `undefined`
    rw [getProperty_element harray hlength, elements_markedWorld] at hread
    cases hindex : arrayIndex? key with
    | none =>
      rw [hindex] at hread
      cases hread
    | some other =>
      rw [hindex, Option.bind_some, List.getElem?_append, List.getElem?_replicate] at hread
      obtain hlt | rfl | hlt := Nat.lt_trichotomy other index
      · simp [hlt] at hread
      · exact arrayIndex?_eq_some_iff.mp hindex
      · have hend : [Value.bool true][other - index]? = none := List.getElem?_eq_none (by simp; omega)
        simp [Nat.not_lt.mpr hlt.le, hend] at hread
  · intro hindex w value helements h
    rw [getProperty_index helements hindex, List.getElem?_eq_getElem h, Option.getD_some]

end World

/-! ## Object literals -/

/-- An object literal that does nothing but spread a value. -/
def Tree.IsSpreadObject (t : Tree) (n argument : NodeId) : Prop :=
  t.tag n = "ObjectExpression" ∧ ∃ element, t.present n "properties" = [element] ∧
    t.tag element = "SpreadElement" ∧ t.child? element "argument" = some argument

namespace Evaluator

variable {ev : Evaluator} {a : Activation} {n argument : NodeId} {s : ScopeId} {w w' : World} {value : Value}
  {steps : Nat}

/-- Spreading a value into an object literal makes a fresh object of its enumerable properties. -/
theorem spread_evaluated (hrule : ev.rules.get? "ObjectExpression" = some .objectExpression)
    (hspread : a.tree.IsSpreadObject n argument)
    (h : ev.perform steps (.eval a n s) w = .ended (.ok value, w')) :
    ∃ used source w₁ fields, ev.perform used (.eval a argument s) w = .ended (.ok source, w₁) ∧
      Context.copyProperties w₁ source ∅ = .ok fields ∧ (value, w') = w₁.newObject fields := by
  obtain ⟨htag, element, hproperties, helement, hargument⟩ := hspread
  obtain ⟨errands, htakes⟩ := takes_of_eval (htag ▸ hrule) h
  have hmeaning : ((ev.context a).objectExpression n s w).Takes ev errands (.ok value) w' := htakes
  have hproperties' : (ev.context a).tree.present n "properties" = [element] := hproperties
  have helement' : (ev.context a).tree.is element "SpreadElement" = true := beq_iff_eq.mpr helement
  rw [Context.objectExpression, hproperties'] at hmeaning
  obtain ⟨first, rest, fields, w₁, rfl, hfirst, hrest⟩ := hmeaning.of_andThen
  rw [Context.properties, if_pos helement'] at hfirst
  obtain ⟨child, hchild, hsource⟩ := Context.takes_require hfirst
  obtain rfl : child = argument := Option.some.inj (hchild.symm.trans hargument)
  obtain ⟨source, w₂, others, rfl, hcopied⟩ := Eval.takes_ask hsource
  obtain ⟨fields', hfields, hdone⟩ := Eval.takes_checks hcopied
  obtain ⟨rfl, rfl, rfl⟩ := Eval.takes_pure hdone
  obtain ⟨used, hperform⟩ := htakes.performed _ List.mem_cons_self
  cases hrest
  exact ⟨used, source, w₁, fields', hperform, hfields, rfl⟩

/-- Once the value is there, the object is made. -/
theorem spread_evaluates (hrule : ev.rules.get? "ObjectExpression" = some .objectExpression)
    (hspread : a.tree.IsSpreadObject n argument) {used : Nat} {source : Value} {w₁ : World} {fields : Dict Value}
    (h : ev.perform used (.eval a argument s) w = .ended (.ok source, w₁))
    (hfields : Context.copyProperties w₁ source ∅ = .ok fields) :
    ∃ steps, ev.perform steps (.eval a n s) w = .ended (.ok (w₁.newObject fields).1, (w₁.newObject fields).2) := by
  obtain ⟨htag, element, hproperties, helement, hargument⟩ := hspread
  have hproperties' : (ev.context a).tree.present n "properties" = [element] := hproperties
  have helement' : (ev.context a).tree.is element "SpreadElement" = true := beq_iff_eq.mpr helement
  have hargument' : (ev.context a).tree.child? element "argument" = some argument := hargument
  have hcopied : (Eval.checks (fun w => Context.copyProperties w source ∅) w₁).Takes ev [] (.ok fields) w₁ := by
    rw [Eval.checks, hfields]
    exact .done _ _
  have hread : ((ev.context a).properties s ∅ [element] w).Takes ev [⟨.eval a argument s, w, .ok source, w₁⟩]
      (.ok fields) w₁ := by
    rw [Context.properties, if_pos helement', Context.require, hargument']
    exact .ask h (hcopied.andThen (.done _ w₁))
  have hmade : ((ev.context a).objectExpression n s w).Takes ev ([⟨.eval a argument s, w, .ok source, w₁⟩] ++ [])
      (.ok (w₁.newObject fields).1) (w₁.newObject fields).2 := by
    rw [Context.objectExpression, hproperties']
    exact hread.andThen (.done _ _)
  have hmeaning : (Rule.objectExpression.meaning ev.host (ev.context a) n s w).Takes ev _ _ _ := hmade
  exact eval_of_takes (htag ▸ hrule) hmeaning

/-- An object was made of what a value enumerates, which for an object are its fields. -/
def Rebuilds (w : World) (source : Value) (value : Value) (w' : World) : Prop :=
  ∃ fields, (value, w') = w.newObject fields ∧ w.ReadsAs source (w.enumerableKeys source) fields.entries ∧
    ∀ id, source = .object id → fields.entries = (w.object id).entries

theorem rebuilds_of_copy {source : Value} {fields : Dict Value}
    (hfields : Context.copyProperties w source ∅ = .ok fields) (hnew : (value, w') = w.newObject fields) :
    Rebuilds w source value w' := by
  obtain ⟨spread, hspread, hreads⟩ := w.spread_readsAs source
  obtain rfl : spread = fields := Except.ok.inj (hspread.symm.trans hfields)
  refine ⟨spread, hnew, hreads, ?_⟩
  rintro id rfl
  exact World.entries_of_spread hfields

/-- **Enumeration, iteration and indexing agree.** In every world, the elements of an array and the characters
of a string are as many as the keys and as the length says, each key reads the element at its position, as
far as there are indices, and no other key but the length reads anything; so the keys of elements are the
canonical numerals of indices, one for each. An object has the fields that it enumerates, in order. An object
literal that spreads a value ends once the value is evaluated, and only then, and makes a fresh object of what
the value enumerates, so of an object's fields the same object again. -/
theorem enumeration_agrees (ev : Evaluator) :
    (∀ (w : World) value, value.HasElements → ∃ items, w.Enumerates value items) ∧
      (∀ key index, World.Addresses key index ↔ IsIndex key index) ∧
      (∀ key key' index, World.Addresses key index → World.Addresses key' index → key = key') ∧
      (∀ (w : World) id, w.ReadsAs (.object id) (w.enumerableKeys (.object id)) (w.object id).entries) ∧
      ∀ a n argument s w, ev.rules.get? "ObjectExpression" = some .objectExpression →
        a.tree.IsSpreadObject n argument →
          (∀ used source w₁, ev.perform used (.eval a argument s) w = .ended (.ok source, w₁) →
            ∃ steps value w', ev.perform steps (.eval a n s) w = .ended (.ok value, w') ∧
              Rebuilds w₁ source value w') ∧
          ∀ steps value w', ev.perform steps (.eval a n s) w = .ended (.ok value, w') →
            ∃ used source w₁, ev.perform used (.eval a argument s) w = .ended (.ok source, w₁) ∧
              Rebuilds w₁ source value w' := by
  refine ⟨fun w value h => ⟨_, w.enumerates h⟩, fun _ _ => World.addresses_iff, fun key key' index h h' => ?_,
    fun w id => World.readsAs_object id, fun a n argument s w hrule hspread => ⟨fun used source w₁ h => ?_,
      fun steps value w' h => ?_⟩⟩
  · exact (World.addresses_iff.mp h).2.trans (World.addresses_iff.mp h').2.symm
  · obtain ⟨fields, hfields, -⟩ := w₁.spread_readsAs source
    obtain ⟨steps, hperform⟩ := spread_evaluates hrule hspread h hfields
    exact ⟨steps, _, _, hperform, rebuilds_of_copy hfields rfl⟩
  · obtain ⟨used, source, w₁, fields, hperform, hfields, hnew⟩ := spread_evaluated hrule hspread h
    exact ⟨used, source, w₁, hperform, rebuilds_of_copy hfields hnew⟩

/-- `{ ...{ a: null } }`. -/
def spreadLiteral : Json :=
  let inner := Json.ofNode "ObjectExpression" [("properties", .array [.ofNode "Property"
    [("key", .ofName "a"), ("value", .ofNode "Literal" [("value", .null)])]])]
  .ofNode "ObjectExpression" [("properties", .array [.ofNode "SpreadElement" [("argument", inner)]])]

theorem enumeration_agrees_spread : ∃ (t : Tree) (value source : Value) (w₁ w' : World) (steps : Nat),
    Tree.ofJson spreadLiteral = .ok t ∧
    standard.perform steps (.eval ⟨t, .start t.root 0, 0⟩ t.root 0) {} = .ended (.ok value, w') ∧
    Rebuilds w₁ source value w' ∧ ∃ items, w₁.Enumerates (.str "ab") items := by
  obtain ⟨t, ht, hcheck⟩ := Tree.exists_ofJson (j := spreadLiteral)
    (p := fun t => t.tag t.root == "ObjectExpression" && t.present t.root "properties" == [4] &&
      t.tag 4 == "SpreadElement" && t.child? 4 "argument" == some 3 &&
      hasValue (standard.perform 40 (.eval ⟨t, .start t.root 0, 0⟩ 3 0) {}))
    (by decide +kernel)
  simp only [Bool.and_eq_true, beq_iff_eq] at hcheck
  obtain ⟨⟨⟨⟨htag, hproperties⟩, helement⟩, hargument⟩, hvalue⟩ := hcheck
  obtain ⟨source, w₁, hinner⟩ := exists_of_hasValue hvalue
  obtain ⟨helements, -, -, -, hspread⟩ := enumeration_agrees standard
  obtain ⟨hevaluates, -⟩ := hspread ⟨t, .start t.root 0, 0⟩ t.root 3 0 {} (by decide +kernel)
    ⟨htag, 4, hproperties, helement, hargument⟩
  obtain ⟨steps, value, w', hrun, hrebuilds⟩ := hevaluates 40 source w₁ hinner
  exact ⟨t, value, source, w₁, w', steps, ht, hrun, hrebuilds, helements w₁ (.str "ab") trivial⟩

/-! ## Long strings -/

/-- A string of equal characters. -/
def repeated (count : Nat) : String := String.ofList (List.replicate count 'x')

theorem elements_repeated (w : World) (count : Nat) :
    w.elements (.str (repeated count)) = List.replicate count (.str "x") := by
  simp [World.elements, characters, repeated]

/-- The last character of a string of `2 ^ 32` characters is iterated and its key enumerated, but nothing is
read under the key. -/
theorem long_string_unaddressed :
    "4294967295" ∈ World.enumerableKeys {} (.str (repeated (2 ^ 32))) ∧
      (∃ items, World.iterate {} (.str (repeated (2 ^ 32))) = .ok items ∧ items[2 ^ 32 - 1]? = some (.str "x")) ∧
      World.getProperty {} (.str (repeated (2 ^ 32))) "4294967295" = .ok .undefined := by
  have hlast : 2 ^ 32 - 1 < (World.elements {} (.str (repeated (2 ^ 32)))).length := by
    rw [elements_repeated, List.length_replicate]
    norm_num
  have hkey : "4294967295" = toString (2 ^ 32 - 1) := by decide +kernel
  have helements : (Value.str (repeated (2 ^ 32))).HasElements := trivial
  have hagrees := World.enumerates {} helements
  refine ⟨?_, ⟨_, hagrees.iterate, ?_⟩, ?_⟩
  · rw [hkey]
    exact List.mem_of_getElem? (hagrees.key _ hlast)
  · rw [elements_repeated, List.getElem?_replicate, if_pos (by norm_num)]
  · rw [hkey, hagrees.reads _ hlast, if_neg (Nat.lt_irrefl _)]

end Evaluator

end ScriptCore

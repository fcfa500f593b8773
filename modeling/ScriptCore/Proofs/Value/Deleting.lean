import ScriptCore.Proofs.Eval.Enumeration
import ScriptCore.Proofs.Value.Membership

/-!
# Deleting properties

What deleting a property comes to, for every kind of base. A field of an object is taken away, an element of an
array becomes `undefined`, and the length of an array stays, as the answer says. No other property of any value
is touched. But what strings and functions have of themselves stays as well, while the answer is `true`
(`World.deletes`).
-/
namespace ScriptCore.World

variable {w w' : World} {base value : Value} {key : String}

/-! ## Changes that keep what is empty -/

theorem array_modifyArray_keeping {f : Array Value → Array Value} (hf : f #[] = #[]) (id : ArrayId) :
    (w.modifyArray id f).array id = f (w.array id) := by
  by_cases hid : id < w.arrays.size
  · exact array_modifyArray hid f
  · have hsize : w.arrays.size ≤ id := Nat.le_of_not_lt hid
    rw [array_of_le hsize, hf, array_of_le]
    rwa [(onlyArray_modifyArray w id f).arrays.1]

theorem object_modifyObject_keeping {f : Dict Value → Dict Value} (hf : f ∅ = ∅) (id : ObjectId) :
    (w.modifyObject id f).object id = f (w.object id) := by
  by_cases hid : id < w.objects.size
  · exact object_modifyObject hid f
  · have hsize : w.objects.size ≤ id := Nat.le_of_not_lt hid
    rw [object_of_le hsize, hf, object_of_le]
    rwa [(onlyObject_modifyObject w id f).objects.1]

/-! ## What is left alone -/

/-- Apart from one property, nothing that can be read or enumerated has changed. -/
structure OnlyProperty (base : Value) (key : String) (w w' : World) : Prop where
  reads : ∀ value other, value ≠ base ∨ other ≠ key → w'.getProperty value other = w.getProperty value other
  /-- The keys of a value stay in their order, but for the key of the base. -/
  order : ∀ value, w'.enumerableKeys value = w.enumerableKeys value ∨
    value = base ∧ w'.enumerableKeys value = (w.enumerableKeys value).erase key
  lengths : ∀ id, (w'.array id).size = (w.array id).size
  rest : w'.scopes = w.scopes ∧ w'.closures = w.closures ∧ w'.log = w.log

theorem OnlyProperty.refl (w : World) : OnlyProperty base key w w :=
  ⟨fun _ _ _ => rfl, fun _ => Or.inl rfl, fun _ => rfl, rfl, rfl, rfl⟩

theorem OnlyObject.same {id : ObjectId} (h : OnlyObject id w w') (hvalue : value ≠ .object id) :
    SameProperties value w w' := by
  have harrays : w'.array = w.array := by
    funext other
    rw [array, array, h.arrays]
  have hclosures : w'.closure? = w.closure? := by
    funext other
    rw [closure?, closure?, h.rest.2.1]
  cases value with
  | object other =>
    have hother : other ≠ id := fun heq => hvalue (congrArg Value.object heq)
    refine ⟨?_, funext fun key => ?_⟩
    · rw [enumerableKeys, enumerableKeys, h.objects.2 other hother]
    · rw [getProperty, getProperty, h.objects.2 other hother]
  | _ => refine ⟨?_, funext fun key => ?_⟩ <;> simp only [enumerableKeys, getProperty, harrays, hclosures]

theorem OnlyArray.same {id : ArrayId} (h : OnlyArray id w w') (hvalue : value ≠ .array id) :
    SameProperties value w w' := by
  have hobjects : w'.object = w.object := by
    funext other
    rw [object, object, h.objects]
  have hclosures : w'.closure? = w.closure? := by
    funext other
    rw [closure?, closure?, h.rest.2.1]
  cases value with
  | array other =>
    have hother : other ≠ id := fun heq => hvalue (congrArg Value.array heq)
    refine ⟨?_, funext fun key => ?_⟩
    · rw [enumerableKeys, enumerableKeys, h.arrays.2 other hother]
    · rw [getProperty, getProperty, h.arrays.2 other hother]
  | _ => refine ⟨?_, funext fun key => ?_⟩ <;> simp only [enumerableKeys, getProperty, hobjects, hclosures]

/-! ## Deleting -/

/-- The properties that strings and functions have of themselves. -/
def HasOfItself (w : World) (key : String) : Value → Prop
  | .str s => key = "length" ∨ ∃ index < s.length, IsIndex key index
  | .closure id => (w.closure? id).isSome = true ∧ (key = "name" ∨ key = "length")
  | .native _ => key = "name"
  | _ => False

/-- What became of a property that was deleted, with an answer. -/
structure Deletes (w : World) (base : Value) (key : String) (gone : Bool) (w' : World) : Prop where
  only : OnlyProperty base key w w'
  /-- What is answered to be gone is gone, -/
  taken : gone = true → ¬ w.HasOfItself key base → w'.getProperty base key = .ok .undefined
  /-- unless the value has it of itself. -/
  left : w.HasOfItself key base → gone = true ∧ w'.getProperty base key = w.getProperty base key ∧
    w.getProperty base key ≠ .ok .undefined
  /-- What is answered to stay is the length of an array, and stays. -/
  stays : gone = false → (∃ id, base = .array id) ∧ key = "length" ∧
    w'.getProperty base key = w.getProperty base key

theorem deletes_object (w : World) (id : ObjectId) (key : String) :
    w.Deletes (.object id) key true (w.modifyObject id fun fields => fields.erase key) := by
  have honly := onlyObject_modifyObject w id fun fields => fields.erase key
  have hchanged : (w.modifyObject id fun fields => fields.erase key).object id = (w.object id).erase key :=
    object_modifyObject_keeping rfl id
  refine ⟨⟨fun value other h => ?_, fun value => ?_, fun other => ?_, honly.rest⟩, fun _ _ => ?_, False.elim,
    Bool.noConfusion⟩
  · by_cases hvalue : value = .object id
    · subst hvalue
      have hother : other ≠ key := h.resolve_left (absurd rfl)
      rw [getProperty, getProperty, hchanged, Dict.get?_erase, if_neg hother.symm]
    · rw [(honly.same hvalue).2]
  · by_cases hvalue : value = .object id
    · subst hvalue
      exact Or.inr ⟨rfl, by rw [enumerableKeys, enumerableKeys, hchanged, Dict.keys_erase]⟩
    · exact Or.inl (honly.same hvalue).1
  · rfl
  · rw [getProperty, hchanged, Dict.get?_erase, if_pos rfl]
    rfl

theorem deletes_element (w : World) (id : ArrayId) {index : Nat} (hindex : IsIndex key index) :
    w.Deletes (.array id) key true (w.modifyArray id fun items => items.setIfInBounds index .undefined) := by
  have honly := onlyArray_modifyArray w id fun items => items.setIfInBounds index .undefined
  have hchanged : (w.modifyArray id fun items => items.setIfInBounds index .undefined).array id =
      (w.array id).setIfInBounds index .undefined := array_modifyArray_keeping rfl id
  have hsize : ∀ other, ((w.modifyArray id fun items => items.setIfInBounds index .undefined).array other).size =
      (w.array other).size := by
    intro other
    by_cases hother : other = id
    · rw [hother, hchanged, Array.size_setIfInBounds]
    · rw [honly.arrays.2 other hother]
  refine ⟨⟨fun value other h => ?_, fun value => Or.inl ?_, hsize, honly.rest⟩, fun _ _ => ?_, False.elim,
    Bool.noConfusion⟩
  · by_cases hvalue : value = .array id
    · subst hvalue
      have hother : other ≠ key := h.resolve_left (absurd rfl)
      by_cases hlength : other = "length"
      · rw [getProperty, getProperty, if_pos hlength, if_pos hlength, hsize]
      · rw [getProperty, getProperty, if_neg hlength, if_neg hlength, hchanged]
        cases hread : arrayIndex? other with
        | none => rfl
        | some i =>
          -- another key is the numeral of another index
          have hi : index ≠ i := by
            rintro rfl
            exact hother ((arrayIndex?_eq_some_iff.mp hread).2.trans hindex.2.symm)
          simp only [Option.bind_some, Array.getElem?_setIfInBounds_ne hi]
    · rw [(honly.same hvalue).2]
  · by_cases hvalue : value = .array id
    · rw [hvalue, enumerableKeys, enumerableKeys, hsize]
    · exact (honly.same hvalue).1
  · rw [getProperty, if_neg hindex.ne_length, arrayIndex?_eq_some_iff.mpr hindex, hchanged]
    simp only [Option.bind_some, Array.getElem?_setIfInBounds_self]
    split <;> rfl

/-- A key of an array that is no index is left alone, and only the length is there to stay. -/
theorem deletes_no_element (w : World) (id : ArrayId) (hindex : ∀ index, ¬ IsIndex key index) :
    w.Deletes (.array id) key (key != "length") w where
  only := .refl w
  taken hgone _ := getProperty_of_not_isIndex (bne_iff_ne.mp hgone) hindex
  left := False.elim
  stays hgone := ⟨⟨id, rfl⟩, bne_eq_false_iff_eq.mp hgone, rfl⟩

theorem length_elements_str (s : String) : (w.elements (.str s)).length = s.length := by
  rw [elements, characters, List.length_map, String.length_toList]

/-- What a value has of itself can be read. -/
theorem getProperty_of_hasOfItself (h : w.HasOfItself key base) : w.getProperty base key ≠ .ok .undefined := by
  cases base with
  | str s =>
    have helements : (Value.str s).HasElements := trivial
    obtain rfl | ⟨index, hsize, hindex⟩ := h
    · rw [getProperty_length helements]
      exact fun h => nomatch h
    · have hsize : index < (w.elements (.str s)).length := (length_elements_str s).symm ▸ hsize
      rw [getProperty_index helements hindex, List.getElem?_eq_getElem hsize, Option.getD_some]
      simp [elements, characters]
  | closure id =>
    obtain ⟨hclosure, hkey⟩ := h
    obtain ⟨closure, hclosure⟩ := Option.isSome_iff_exists.mp hclosure
    obtain rfl | rfl := hkey <;> simp [getProperty, hclosure]
  | native name =>
    cases h
    simp [getProperty]
  | _ => exact h.elim

/-- Strings, functions and plain values have nothing but what they have of themselves. -/
theorem getProperty_of_not_hasOfItself (harray : ∀ id, base ≠ .array id) (hobject : ∀ id, base ≠ .object id)
    (hnullish : base.isNullish = false) (h : ¬ w.HasOfItself key base) : w.getProperty base key = .ok .undefined := by
  cases base with
  | undefined => cases hnullish
  | null => cases hnullish
  | array id => exact absurd rfl (harray id)
  | object id => exact absurd rfl (hobject id)
  | bool b => rfl
  | number n => rfl
  | str s =>
    obtain ⟨hlength, hindex⟩ := not_or.mp h
    have helements : (Value.str s).HasElements := trivial
    rw [getProperty_element helements hlength]
    cases hread : arrayIndex? key with
    | none => rfl
    | some index =>
      have hend : (w.elements (.str s))[index]? = none := by
        refine List.getElem?_eq_none (Nat.le_of_not_lt fun hlt => hindex ⟨index, ?_, arrayIndex?_eq_some_iff.mp hread⟩)
        rwa [length_elements_str] at hlt
      rw [Option.bind_some, hend]
      rfl
  | closure id =>
    cases hclosure : w.closure? id with
    | none => simp [getProperty, hclosure]
    | some closure =>
      have hkeys : ¬ (key = "name" ∨ key = "length") := fun hkey => h ⟨by simp [hclosure], hkey⟩
      obtain ⟨hname, hlength⟩ := not_or.mp hkeys
      simp [getProperty, hclosure, hname, hlength]
  | native name =>
    have hname : key ≠ "name" := h
    simp [getProperty, hname]

/-- Strings and functions are left alone, whatever is answered. -/
theorem deletes_from_others (harray : ∀ id, base ≠ .array id) (hobject : ∀ id, base ≠ .object id)
    (hnullish : base.isNullish = false) : w.Deletes base key true w where
  only := .refl w
  taken _ h := getProperty_of_not_hasOfItself harray hobject hnullish h
  left h := ⟨rfl, rfl, getProperty_of_hasOfItself h⟩
  stays := Bool.noConfusion

/-- **What deleting comes to.** Deleting a property of `undefined` or `null` fails and does nothing. Of any other
value it comes to an answer, as `Deletes` says: only the property itself is touched, and the answer is right
unless strings or functions have the property of themselves. -/
theorem deletes (w : World) (base : Value) (key : String) :
    (base.isNullish = true → w.deleteProperty base key = (.error (cannotRead key base), w)) ∧
      (base.isNullish = false → ∃ gone w', w.deleteProperty base key = (.ok gone, w') ∧
        w.Deletes base key gone w') := by
  cases base with
  | undefined => exact ⟨fun _ => rfl, Bool.noConfusion⟩
  | null => exact ⟨fun _ => rfl, Bool.noConfusion⟩
  | object id => exact ⟨Bool.noConfusion, fun _ => ⟨true, _, rfl, w.deletes_object id key⟩⟩
  | array id =>
    refine ⟨Bool.noConfusion, fun _ => ⟨_, _, rfl, ?_⟩⟩
    cases hindex : arrayIndex? key with
    | some index =>
      have hindex := arrayIndex?_eq_some_iff.mp hindex
      rw [bne_iff_ne.mpr hindex.ne_length]
      exact w.deletes_element id hindex
    | none =>
      refine w.deletes_no_element id fun index hfound => ?_
      rw [arrayIndex?_eq_some_iff.mpr hfound] at hindex
      cases hindex
  | _ => exact ⟨Bool.noConfusion, fun _ => ⟨true, w, rfl, deletes_from_others (by nofun) (by nofun) rfl⟩⟩

end ScriptCore.World

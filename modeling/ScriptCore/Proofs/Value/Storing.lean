import ScriptCore.Proofs.Numeric.Whole
import ScriptCore.Proofs.Value.Circular

/-!
# Storing properties

What a write to a property comes to, for every kind of base. A write to an array is refused beyond the bound
and then changes nothing; else it changes one element, with `undefined` in the gap before it, or cuts the
array or fills it up to a length. A write to an object changes one field. No write changes anything else of
the world (`World.properties_stored`).

An index is compared with the bound itself, but a length with the double next to it. Up to `2 ^ 53` they are
the same. Beyond, a length may exceed the bound and be set all the same, or come to no result, since no vector
has so many elements (`World.length_beyond_bound`).
-/
namespace ScriptCore

theorem size_resized (items : Array Value) (length : Nat) : (resized items length).size = length := by
  rw [resized]
  split
  next h => rw [Array.size_shrink, Nat.min_eq_left h]
  next h =>
    rw [Array.size_append, Array.size_replicate]
    omega

/-- The elements up to the new length stay, and `undefined` fills up what is missing. -/
theorem getElem?_resized (items : Array Value) (length i : Nat) :
    (resized items length)[i]? = if i < length then some (items[i]?.getD .undefined) else none := by
  split
  next hi =>
    rw [resized]
    split
    next hle =>
      have hitem : i < items.size := Nat.lt_of_lt_of_le hi hle
      simp [hi, hitem]
    next hle =>
      rw [Array.getElem?_append]
      split
      next hitem => simp [hitem]
      next hitem =>
        have hnone : items[i]? = none := Array.getElem?_eq_none (Nat.le_of_not_lt hitem)
        rw [Array.getElem?_replicate, if_pos (by omega), hnone]
        rfl
  next hi =>
    apply Array.getElem?_eq_none
    rw [size_resized]
    exact Nat.le_of_not_lt hi

namespace World

variable {w w' : World}

/-! ## Frames -/

@[simp] theorem array_modifyArray {id : ArrayId} (hid : id < w.arrays.size) (f : Array Value → Array Value) :
    (w.modifyArray id f).array id = f (w.array id) := by
  simp [modifyArray, array, Array.getElem_modify, hid]

theorem array_modifyArray_other {id other : ArrayId} (h : other ≠ id) (f : Array Value → Array Value) :
    (w.modifyArray id f).array other = w.array other := by
  simp [modifyArray, array, Array.getElem?_modify, h.symm]

@[simp] theorem object_modifyObject {id : ObjectId} (hid : id < w.objects.size) (f : Dict Value → Dict Value) :
    (w.modifyObject id f).object id = f (w.object id) := by
  simp [modifyObject, object, Array.getElem_modify, hid]

theorem object_modifyObject_other {id other : ObjectId} (h : other ≠ id) (f : Dict Value → Dict Value) :
    (w.modifyObject id f).object other = w.object other := by
  simp [modifyObject, object, Array.getElem?_modify, h.symm]

/-- Of all that there is in a world, only one array has changed. -/
structure OnlyArray (id : ArrayId) (w w' : World) : Prop where
  arrays : w'.arrays.size = w.arrays.size ∧ ∀ other ≠ id, w'.array other = w.array other
  objects : w'.objects = w.objects
  rest : w'.scopes = w.scopes ∧ w'.closures = w.closures ∧ w'.log = w.log

/-- Of all that there is in a world, only one object has changed. -/
structure OnlyObject (id : ObjectId) (w w' : World) : Prop where
  objects : w'.objects.size = w.objects.size ∧ ∀ other ≠ id, w'.object other = w.object other
  arrays : w'.arrays = w.arrays
  rest : w'.scopes = w.scopes ∧ w'.closures = w.closures ∧ w'.log = w.log

theorem onlyArray_modifyArray (w : World) (id : ArrayId) (f : Array Value → Array Value) :
    OnlyArray id w (w.modifyArray id f) where
  arrays := ⟨Array.size_modify, fun _ hother => array_modifyArray_other hother f⟩
  objects := rfl
  rest := ⟨rfl, rfl, rfl⟩

theorem onlyObject_modifyObject (w : World) (id : ObjectId) (f : Dict Value → Dict Value) :
    OnlyObject id w (w.modifyObject id f) where
  objects := ⟨Array.size_modify, fun _ hother => object_modifyObject_other hother f⟩
  arrays := rfl
  rest := ⟨rfl, rfl, rfl⟩

/-! ## Arrays -/

/-- A write takes an array beyond the bound, or its length to what is no length or exceeds the double next to
the bound. -/
def Exceeds (w : World) (key : String) (value : Value) (bound : Nat) : Prop :=
  (key = "length" ∧
      ¬ ∃ length ≤ Numeric.rounded bound, Numeric.rational? (w.number value) = some (length : ℚ)) ∨
    ∃ index, IsIndex key index ∧ bound < index + 1

/-- What writing a property of an array comes to. -/
structure StoresElement (w : World) (id : ArrayId) (key : String) (value : Value) (bound : Nat) : Prop where
  /-- The write fails exactly where it exceeds the bound, and then nothing has changed. -/
  refused : ∀ cause w', w.setProperty? (.array id) key value bound = some (.error cause, w') ↔
    w.Exceeds key value bound ∧ w' = w ∧
      cause = .invalidArrayLength (if key = "length" then w.text value else key)
  /-- At an index within the bound the array holds the value then. -/
  index : ∀ index, IsIndex key index → index + 1 ≤ bound →
    ∃ w', w.setProperty? (.array id) key value bound = some (.ok (), w') ∧
      w'.getProperty (.array id) key = .ok value ∧
      (w'.array id).size = max (w.array id).size (index + 1) ∧
      (∀ i ≠ index, (w'.array id)[i]? =
        if (w.array id).size ≤ i ∧ i < index then some .undefined else (w.array id)[i]?) ∧
      OnlyArray id w w'
  /-- With a length within the rounded bound the array is cut, or filled up with `undefined`. -/
  length : key = "length" → ∀ length ≤ Numeric.rounded bound, length ≤ maxElements →
    Numeric.rational? (w.number value) = some (length : ℚ) →
    ∃ w', w.setProperty? (.array id) key value bound = some (.ok (), w') ∧
      w'.getProperty (.array id) key = .ok (.number (Numeric.ofNat length)) ∧
      (w'.array id).size = length ∧
      (∀ i < length, (w'.array id)[i]? = some ((w.array id)[i]?.getD .undefined)) ∧
      OnlyArray id w w'
  /-- A length that no vector can have comes to no result. -/
  overlong : key = "length" → w.Overlong value bound → w.setProperty? (.array id) key value bound = none
  /-- A write to another key changes nothing. -/
  ignored : key ≠ "length" → (∀ index, ¬ IsIndex key index) →
    w.setProperty? (.array id) key value bound = some (.ok (), w)

variable {key : String} {value : Value} {bound : Nat}

theorem setProperty?_length {id : ArrayId} (hholds : ¬ w.Holds value id) {length : Nat}
    (hbound : length ≤ Numeric.rounded bound) (hfits : length ≤ maxElements)
    (hnumber : Numeric.rational? (w.number value) = some (length : ℚ)) :
    w.setProperty? (.array id) "length" value bound =
      some (.ok (), w.modifyArray id fun items => resized items length) := by
  have hreads : ¬ w.reads value id = true := fun h => hholds (reads_iff.mp h)
  have hlength := filter_toNat?_eq_some_iff.mpr ⟨hbound, hnumber⟩
  have hwrite : w.writeOf (.array id) "length" value bound = .length id length := by
    simp only [writeOf, hreads, hlength, hfits, if_true, if_false, Bool.false_eq_true]
  rw [setProperty?, hwrite]
  rfl

theorem setProperty?_index {id : ArrayId} {index : Nat} (hindex : IsIndex key index)
    (hbound : index + 1 ≤ bound) :
    w.setProperty? (.array id) key value bound =
      some (.ok (), w.applyWrite (.element id index) key value) := by
  have hwrite : w.writeOf (.array id) key value bound = .element id index := by
    rw [writeOf, if_neg hindex.ne_length, arrayIndex?_eq_some_iff.mpr hindex]
    exact if_pos hbound
  rw [setProperty?, hwrite]

/-- The elements after a write to an index. -/
def withElement (items : Array Value) (index : Nat) (value : Value) : Array Value :=
  (if index < items.size then items else resized items (index + 1)).setIfInBounds index value

theorem size_withElement (items : Array Value) (index : Nat) (value : Value) :
    (withElement items index value).size = max items.size (index + 1) := by
  rw [withElement, Array.size_setIfInBounds]
  split
  · omega
  · rw [size_resized]
    omega

theorem getElem?_withElement (items : Array Value) (index : Nat) (value : Value) (i : Nat) :
    (withElement items index value)[i]? =
      if i = index then some value
      else if items.size ≤ i ∧ i < index then some .undefined else items[i]? := by
  have hsize : index < (if index < items.size then items else resized items (index + 1)).size := by
    split
    next h => exact h
    · rw [size_resized]
      exact Nat.lt_succ_self index
  rw [withElement]
  by_cases hi : i = index
  · subst hi
    rw [if_pos rfl, Array.getElem?_setIfInBounds_self_of_lt hsize]
  · rw [if_neg hi, Array.getElem?_setIfInBounds_ne (Ne.symm hi)]
    split
    next hlt => rw [if_neg (by omega)]
    next hle =>
      rw [getElem?_resized]
      by_cases hitem : i < items.size
      · rw [if_pos (by omega), if_neg (by omega), Array.getElem?_eq_getElem hitem, Option.getD_some]
      · have hnone : items[i]? = none := Array.getElem?_eq_none (Nat.le_of_not_lt hitem)
        simp only [hnone, Option.getD_none]
        split <;> split <;> first | rfl | omega

/-- A length that no vector can have comes to no result. -/
theorem setProperty?_of_overlong {id : ArrayId} (hkey : key = "length") (h : w.Overlong value bound) :
    w.setProperty? (.array id) key value bound = none := by
  rw [setProperty?_eq_none_iff_writeOf, writeOf_eq_circular_iff, writeOf_eq_overlong_iff]
  by_cases hholds : w.Holds value id
  · exact Or.inl ⟨id, rfl, hkey, hholds⟩
  · exact Or.inr ⟨id, rfl, hkey, hholds, h⟩

/-- A write that exceeds the bound is refused. -/
theorem setProperty?_refused {id : ArrayId} (hholds : key = "length" → ¬ w.Holds value id)
    (h : w.Exceeds key value bound) :
    w.setProperty? (.array id) key value bound =
      some (.error (.invalidArrayLength (if key = "length" then w.text value else key)), w) := by
  have hwrite : w.writeOf (.array id) key value bound =
      .refused (.invalidArrayLength (if key = "length" then w.text value else key)) := by
    obtain ⟨hkey, hlength⟩ | ⟨index, hindex, hbound⟩ := h
    · have hreads : ¬ w.reads value id = true := fun hreads => hholds hkey (reads_iff.mp hreads)
      have hnone : (Numeric.toNat? (w.number value)).filter (· ≤ Numeric.rounded bound) = none :=
        Option.eq_none_iff_forall_ne_some.mpr fun length heq =>
          hlength ⟨length, filter_toNat?_eq_some_iff.mp heq⟩
      rw [writeOf, if_pos hkey, if_neg hreads, hnone, if_pos hkey]
    · have hkey : key ≠ "length" := hindex.ne_length
      rw [writeOf, if_neg hkey, arrayIndex?_eq_some_iff.mpr hindex, if_neg hkey]
      exact if_neg (by omega)
  rw [setProperty?, hwrite]

/-- A write to what is neither the length nor an index is ignored. -/
theorem setProperty?_ignored {id : ArrayId} (hkey : key ≠ "length") (hindex : ∀ index, ¬ IsIndex key index) :
    w.setProperty? (.array id) key value bound = some (.ok (), w) := by
  have hnone : arrayIndex? key = none :=
    Option.eq_none_iff_forall_ne_some.mpr fun index heq => hindex index (arrayIndex?_eq_some_iff.mp heq)
  have hwrite : w.writeOf (.array id) key value bound = .ignored := by
    rw [writeOf, if_neg hkey, hnone]
  rw [setProperty?, hwrite]
  rfl

/-- A write that does not exceed the bound is not refused. -/
theorem setProperty?_of_not_exceeds {id : ArrayId} (hholds : key = "length" → ¬ w.Holds value id)
    (h : ¬ w.Exceeds key value bound) : w.setProperty? (.array id) key value bound = none ∨
      ∃ w', w.setProperty? (.array id) key value bound = some (.ok (), w') := by
  rw [Exceeds, not_or] at h
  obtain ⟨hlength, hindex⟩ := h
  by_cases hkey : key = "length"
  · have hallowed : ∃ length ≤ Numeric.rounded bound, Numeric.rational? (w.number value) = some (length : ℚ) := by
      by_contra hnone
      exact hlength ⟨hkey, hnone⟩
    obtain ⟨length, hbound, hnumber⟩ := hallowed
    obtain hfits | hlong := le_or_gt length maxElements
    · subst hkey
      exact Or.inr ⟨_, setProperty?_length (hholds rfl) hbound hfits hnumber⟩
    · exact Or.inl (setProperty?_of_overlong hkey ⟨length, hlong, hbound, hnumber⟩)
  · by_cases hnone : ∀ index, ¬ IsIndex key index
    · exact Or.inr ⟨w, setProperty?_ignored hkey hnone⟩
    · obtain ⟨index, hfound⟩ := not_forall_not.mp hnone
      have hbound : ¬ bound < index + 1 := fun hlt => hindex ⟨index, hfound, hlt⟩
      exact Or.inr ⟨_, setProperty?_index hfound (Nat.le_of_not_lt hbound)⟩

/-- What writing a property of an array comes to, whatever the key, the value and the bound. -/
theorem storesElement {id : ArrayId} (hid : id < w.arrays.size)
    (hholds : key = "length" → ¬ w.Holds value id) : w.StoresElement id key value bound where
  refused cause w' := by
    by_cases hexceeds : w.Exceeds key value bound
    · rw [setProperty?_refused hholds hexceeds]
      simp [hexceeds, eq_comm, and_comm]
    · refine iff_of_false ?_ fun h => hexceeds h.1
      obtain hnone | ⟨w₁, hok⟩ := setProperty?_of_not_exceeds hholds hexceeds
      · simp [hnone]
      · simp [hok]
  index index hindex hbound := by
    have hchanged := array_modifyArray hid (withElement · index value)
    refine ⟨w.modifyArray id (withElement · index value), setProperty?_index hindex hbound, ?_, ?_, ?_,
      onlyArray_modifyArray w id _⟩
    · rw [getProperty, if_neg hindex.ne_length, arrayIndex?_eq_some_iff.mpr hindex, hchanged]
      simp [getElem?_withElement]
    · rw [hchanged, size_withElement]
    · intro i hi
      rw [hchanged, getElem?_withElement, if_neg hi]
  length hkey length hbound hfits hnumber := by
    have hchanged := array_modifyArray hid (resized · length)
    subst hkey
    refine ⟨w.modifyArray id (resized · length), setProperty?_length (hholds rfl) hbound hfits hnumber, ?_, ?_, ?_,
      onlyArray_modifyArray w id _⟩
    · rw [getProperty, if_pos rfl, hchanged, size_resized]
    · rw [hchanged, size_resized]
    · intro i hi
      rw [hchanged, getElem?_resized, if_pos hi]
  overlong := setProperty?_of_overlong
  ignored := setProperty?_ignored

/-! ## Objects -/

/-- What writing a property of an object comes to: the field is there with the value, a new one as the last, and
the other fields are as they were. -/
def StoresField (w : World) (id : ObjectId) (key : String) (value : Value) (bound : Nat) : Prop :=
  ∃ w', w.setProperty? (.object id) key value bound = some (.ok (), w') ∧
    w'.getProperty (.object id) key = .ok value ∧
    (∀ other ≠ key, (w'.object id).get? other = (w.object id).get? other) ∧
    (w'.object id).keys = (if key ∈ (w.object id).keys then (w.object id).keys else (w.object id).keys ++ [key]) ∧
    OnlyObject id w w'

theorem storesField {id : ObjectId} (hid : id < w.objects.size) : w.StoresField id key value bound := by
  have hchanged := object_modifyObject hid (Dict.insert · key value)
  refine ⟨w.modifyObject id (Dict.insert · key value), rfl, ?_, ?_, ?_, onlyObject_modifyObject w id _⟩
  · rw [getProperty, hchanged, Dict.get?_insert, if_pos rfl, Option.getD_some]
  · intro other hother
    rw [hchanged, Dict.get?_insert, if_neg hother.symm]
  · rw [hchanged, Dict.keys_insert]

/-! ## All values -/

/-- **Properties are stored.** A write to an array of the world either exceeds the bound, is refused and
changes nothing, or changes the element or the length that it names. A write to an object changes the field
that it names. A write to any other value changes nothing, and fails for `undefined` and `null`. Up to `2 ^ 53`
the bound is the same for lengths as for indices, and no length is left without a result. -/
theorem properties_stored (w : World) (key : String) (value : Value) (bound : Nat) :
    (∀ id < w.arrays.size, (key = "length" → ¬ w.Holds value id) → w.StoresElement id key value bound) ∧
      (∀ id < w.objects.size, w.StoresField id key value bound) ∧
      (∀ base, (∀ id, base ≠ .array id) → (∀ id, base ≠ .object id) →
        w.setProperty? base key value bound =
          some (if base.isNullish then .error (cannotRead key base) else .ok (), w)) ∧
      (bound ≤ 2 ^ 53 → Numeric.rounded bound = bound ∧ ¬ w.Overlong value bound) := by
  refine ⟨fun id hid hholds => storesElement hid hholds, fun id hid => storesField hid,
    fun base harray hobject => ?_, fun hbound => ⟨Numeric.rounded_eq_self hbound, not_overlong hbound⟩⟩
  cases base with
  | array id => exact absurd rfl (harray id)
  | object id => exact absurd rfl (hobject id)
  | _ => rfl

/-- An array of one element, an array that holds it, and an object. -/
def storingWorld : World where
  arrays := #[#[.bool true], #[.array 0]]
  objects := #[.ofList [("a", .null)]]

theorem properties_stored_gap :
    (∃ w', storingWorld.setProperty? (.array 0) "2" (.array 1) 3 = some (.ok (), w') ∧
      w'.getProperty (.array 0) "2" = .ok (.array 1) ∧ (w'.array 0).size = 3 ∧
      (w'.array 0)[1]? = some .undefined ∧ OnlyArray 0 storingWorld w') ∧
    storingWorld.setProperty? (.array 1) "length" .undefined 3 =
      some (.error (.invalidArrayLength "undefined"), storingWorld) ∧
    (∃ w', storingWorld.setProperty? (.object 0) "2" (.array 1) 3 = some (.ok (), w') ∧
      (w'.object 0).keys = ["a", "2"]) := by
  have hindex : IsIndex "2" 2 := ⟨by decide, by decide⟩
  have hreads : ¬ storingWorld.Holds .undefined 1 := fun ⟨_, h⟩ => nomatch h
  have hlength : storingWorld.Exceeds "length" .undefined 3 := by
    refine Or.inl ⟨rfl, fun ⟨length, _, h⟩ => ?_⟩
    rw [← Numeric.toNat?_eq_some_iff] at h
    have hnone : Numeric.toNat? (storingWorld.number .undefined) = none := by decide +kernel
    rw [hnone] at h
    cases h
  obtain ⟨harrays, hobjects, -, -⟩ := properties_stored storingWorld "2" (.array 1) 3
  obtain ⟨hlengths, -, -, -⟩ := properties_stored storingWorld "length" .undefined 3
  obtain ⟨w₁, hok, hget, hsize, hothers, honly⟩ :=
    (harrays 0 (by decide) fun h => absurd h (by decide)).index 2 hindex (by decide)
  obtain ⟨w₂, hstored, -, -, hkeys, -⟩ := hobjects 0 (by decide)
  refine ⟨⟨w₁, hok, hget, hsize, ?_, honly⟩, ?_, w₂, hstored, ?_⟩
  · rw [hothers 1 (by decide)]
    rfl
  · exact ((hlengths 1 (by decide) fun _ => hreads).refused _ _).mpr ⟨hlength, rfl, rfl⟩
  · rw [hkeys]
    decide +kernel

/-- One element more than the bound allows is set as the length of an array, or comes to no result. -/
theorem length_beyond_bound :
    (∃ w', storingWorld.setProperty? (.array 0) "length" (.number (Numeric.ofNat (2 ^ 53 + 4))) (2 ^ 53 + 3) =
        some (.ok (), w') ∧ (w'.array 0).size = 2 ^ 53 + 4) ∧
      storingWorld.setProperty? (.array 0) "length" (.number (Numeric.ofNat (2 ^ 60))) (2 ^ 60 - 1) = none := by
  refine ⟨?_, by decide +kernel⟩
  have hholds : ¬ storingWorld.Holds (.number (Numeric.ofNat (2 ^ 53 + 4))) 0 := fun ⟨_, h⟩ => nomatch h
  have hnumber : Numeric.rational? (Numeric.ofNat (2 ^ 53 + 4)) = some ((2 ^ 53 + 4 : Nat) : ℚ) :=
    Numeric.toNat?_eq_some_iff.mp (by decide +kernel)
  refine ⟨_, setProperty?_length hholds (by decide +kernel) (by decide) hnumber, ?_⟩
  rw [array_modifyArray (by decide), size_resized]

end World

end ScriptCore

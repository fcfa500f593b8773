import ScriptCore.Proofs.Value.Storing
import ScriptCore.Value.Operator

/-!
# The operator `in`

What `in` answers against what can be read. Objects and closures have the properties that `in` finds. Of an
array `in` also finds numerals of an element's index that are no keys of it, written with zeros or a plus
sign in front, and of a function of the host also a length (`World.in_iff`). What can be read is always
found.
-/
namespace ScriptCore.World

/-- The properties of arrays, objects and functions that can be read. -/
def HasReadable (w : World) (key : String) : Value → Prop
  | .object id => key ∈ (w.object id).keys
  | .array id => key = "length" ∨ ∃ index < (w.array id).size, IsIndex key index
  | .closure _ => key = "name" ∨ key = "length"
  | .native _ => key = "name"
  | _ => False

/-- A key spells the number of an element, with zeros or a plus sign in front, or as one that no index
reaches. -/
def Respells (w : World) (key : String) (id : ArrayId) : Prop :=
  (∀ index, ¬ IsIndex key index) ∧ ∃ number < (w.array id).size, number < 2 ^ 64 ∧
    (Numeric.IsNumeral key.toList number ∨ ∃ ds, key.toList = '+' :: ds ∧ Numeric.IsNumeral ds number)

/-- What `in` takes for a property although it cannot be read. -/
def Mistakes (w : World) (key : String) : Value → Prop
  | .array id => w.Respells key id
  | .native _ => key = "length"
  | _ => False

variable {w : World} {key : String}

theorem readWord?_of_isIndex {index : Nat} (h : IsIndex key index) :
    Numeric.readWord? 10 key.toList = some index := by
  obtain ⟨hlt, hkey⟩ := h
  rw [Numeric.readWord?_eq_some_iff, hkey, Numeric.toList_toString]
  exact ⟨by omega, Or.inl (Numeric.isNumeral_naturalDigits index)⟩

/-- An element is found by any numeral of its index, the canonical one among them. -/
theorem hasElement_iff {id : ArrayId} :
    (Numeric.readWord? 10 key.toList).any (· < (w.array id).size) = true ↔
      (∃ index < (w.array id).size, IsIndex key index) ∨ w.Respells key id := by
  simp only [Option.any_eq_true, decide_eq_true_eq]
  constructor
  · rintro ⟨number, hread, hsize⟩
    -- a key that is an index reads as that index, so only other keys can respell one
    by_cases hindex : ∃ index, IsIndex key index
    · obtain ⟨index, hindex⟩ := hindex
      rw [readWord?_of_isIndex hindex] at hread
      cases hread
      exact Or.inl ⟨_, hsize, hindex⟩
    · obtain ⟨hword, hspelt⟩ := Numeric.readWord?_eq_some_iff.mp hread
      exact Or.inr ⟨not_exists.mp hindex, number, hsize, hword, hspelt⟩
  · rintro (⟨index, hsize, hindex⟩ | ⟨-, number, hsize, hword, hspelt⟩)
    · exact ⟨index, readWord?_of_isIndex hindex, hsize⟩
    · exact ⟨number, Numeric.readWord?_eq_some_iff.mpr ⟨hword, hspelt⟩, hsize⟩

theorem hasProperty_iff (target : Value) :
    w.hasProperty target key = .ok true ↔ w.HasReadable key target ∨ w.Mistakes key target := by
  cases target with
  | object id =>
    rw [hasProperty, Except.ok.injEq, Dict.contains_iff]
    simp [HasReadable, Mistakes]
  | array id =>
    rw [hasProperty, Except.ok.injEq, Bool.or_eq_true, beq_iff_eq, hasElement_iff, ← or_assoc]
    rfl
  | closure id => simp [hasProperty, HasReadable, Mistakes]
  | native name => simp [hasProperty, HasReadable, Mistakes]
  | _ => simp [hasProperty, HasReadable, Mistakes]

/-- What reads as a value is found, unless the base is a string. -/
theorem hasReadable_of_getProperty {target value : Value} (htarget : target.isComposite = true)
    (hget : w.getProperty target key = .ok value) (hvalue : value.isUndefined = false) :
    w.HasReadable key target := by
  cases target with
  | object id =>
    rw [HasReadable, ← Dict.contains_iff, Dict.contains]
    cases hfield : (w.object id).get? key with
    | some _ => rfl
    | none =>
      rw [getProperty, hfield] at hget
      cases hget
      cases hvalue
  | array id =>
    rw [getProperty] at hget
    split at hget
    next hkey => exact Or.inl hkey
    next hkey =>
      right
      cases hindex : arrayIndex? key with
      | none =>
        rw [hindex] at hget
        cases hget
        cases hvalue
      | some index =>
        refine ⟨index, ?_, arrayIndex?_eq_some_iff.mp hindex⟩
        by_contra hsize
        have hnone : (w.array id)[index]? = none := Array.getElem?_eq_none (Nat.le_of_not_lt hsize)
        rw [hindex, Option.bind_some, hnone] at hget
        cases hget
        cases hvalue
  | closure id =>
    rw [getProperty] at hget
    rw [HasReadable]
    split at hget
    · split at hget
      next hkey => exact Or.inl hkey
      · split at hget
        next hkey => exact Or.inr hkey
        · cases hget
          cases hvalue
    · cases hget
      cases hvalue
  | native name =>
    rw [getProperty] at hget
    split at hget
    next hkey => exact hkey
    · cases hget
      cases hvalue
  | _ => cases htarget

/-- Writing the property of an array overwrites an element. -/
def Overwrites (w : World) (id : ArrayId) (key : String) (value : Value) (bound : Nat) : Prop :=
  ∃ w', w.setProperty? (.array id) key value bound = some (.ok (), w') ∧
    w'.getProperty (.array id) key = .ok value ∧ (w'.array id).size = (w.array id).size

theorem overwrites_of_isIndex {id : ArrayId} {index bound : Nat} (hid : id < w.arrays.size)
    (hindex : IsIndex key index) (hsize : index < (w.array id).size) (hbound : index < bound)
    (value : Value) : w.Overwrites id key value bound := by
  obtain ⟨w', hok, hget, hgrown, -, -⟩ :=
    (storesElement hid fun h => absurd h hindex.ne_length).index index hindex hbound
  exact ⟨w', hok, hget, by omega⟩

theorem getProperty_of_isIndex {id : ArrayId} {index : Nat} (hindex : IsIndex key index)
    (hsize : index < (w.array id).size) : w.getProperty (.array id) key = .ok (w.array id)[index] := by
  rw [getProperty, if_neg hindex.ne_length, arrayIndex?_eq_some_iff.mpr hindex, Option.bind_some,
    Array.getElem?_eq_getElem hsize, Option.getD_some]

/-- Nothing is read under a key that is no index. -/
theorem getProperty_of_not_isIndex {id : ArrayId} (hkey : key ≠ "length")
    (hindex : ∀ index, ¬ IsIndex key index) : w.getProperty (.array id) key = .ok .undefined := by
  have hnone : arrayIndex? key = none :=
    Option.eq_none_iff_forall_ne_some.mpr fun index heq => hindex index (arrayIndex?_eq_some_iff.mp heq)
  rw [getProperty, if_neg hkey, hnone]
  rfl

/-- **What `in` finds.** It finds the properties that can be read, the other spellings of an element's number
and the length of a function of the host, and nothing else. A key whose reading gives a value is found. A
found index is one of an element, which is read and, within the bound, overwritten; but under another spelling
nothing is read, and a write changes nothing. -/
theorem in_iff (w : World) (key target : Value) :
    (w.binary "in" key target = .ok (.bool true) ↔
        w.HasReadable (w.key key) target ∨ w.Mistakes (w.key key) target) ∧
      (∀ value, target.isComposite = true → w.getProperty target (w.key key) = .ok value →
        value.isUndefined = false → w.binary "in" key target = .ok (.bool true)) ∧
      ∀ id, target = .array id → id < w.arrays.size → w.binary "in" key target = .ok (.bool true) →
        w.key key ≠ "length" →
          (∃ index, ∃ h : index < (w.array id).size, IsIndex (w.key key) index ∧
            w.getProperty target (w.key key) = .ok (w.array id)[index] ∧
            ∀ value bound, index < bound → w.Overwrites id (w.key key) value bound) ∨
          w.Respells (w.key key) id ∧ w.getProperty target (w.key key) = .ok .undefined ∧
            ∀ value bound, w.setProperty? target (w.key key) value bound = some (.ok (), w) := by
  have hin : w.binary "in" key target = .ok (.bool true) ↔
      w.HasReadable (w.key key) target ∨ w.Mistakes (w.key key) target := by
    rw [← hasProperty_iff, binary]
    cases w.hasProperty target (w.key key) <;> simp [Except.map]
  refine ⟨hin, fun value htarget hget hvalue => ?_, ?_⟩
  · exact hin.mpr (Or.inl (hasReadable_of_getProperty htarget hget hvalue))
  · rintro id rfl hid hfound hkey
    obtain (hlength | ⟨index, hsize, hindex⟩) | hrespells := hin.mp hfound
    · exact absurd hlength hkey
    · exact Or.inl ⟨index, hsize, hindex, getProperty_of_isIndex hindex hsize, fun value _ hbound =>
        overwrites_of_isIndex hid hindex hsize hbound value⟩
    · exact Or.inr ⟨hrespells, getProperty_of_not_isIndex hkey hrespells.1, fun _ _ =>
        setProperty?_ignored hkey hrespells.1⟩

/-- An array of one element. -/
def flagWorld : World where
  arrays := #[#[.bool true]]

theorem in_iff_element :
    flagWorld.binary "in" (.number 0) (.array 0) = .ok (.bool true) ∧
      flagWorld.Overwrites 0 "0" .null 1 := by
  have hkey : flagWorld.key (.number 0) = "0" := by decide +kernel
  have hget : flagWorld.getProperty (.array 0) (flagWorld.key (.number 0)) = .ok (.bool true) := by
    rw [hkey]
    rfl
  obtain ⟨-, hread, hfound⟩ := in_iff flagWorld (.number 0) (.array 0)
  have hin := hread (.bool true) rfl hget rfl
  refine ⟨hin, ?_⟩
  obtain ⟨index, hsize, -, -, hwrite⟩ | ⟨-, hnone, -⟩ := hfound 0 rfl (by decide) hin (by rw [hkey]; decide)
  · rw [← hkey]
    exact hwrite .null 1 hsize
  · rw [hget] at hnone
    cases hnone

/-- `in` finds `00` in the array, under which nothing is read and nothing is written, and a length in a
function of the host, which has none. -/
theorem in_finds_unreadable :
    flagWorld.binary "in" (.str "00") (.array 0) = .ok (.bool true) ∧
      flagWorld.getProperty (.array 0) "00" = .ok .undefined ∧
      flagWorld.setProperty? (.array 0) "00" .null 1 = some (.ok (), flagWorld) ∧
      flagWorld.binary "in" (.str "length") (.native "log") = .ok (.bool true) ∧
      flagWorld.getProperty (.native "log") "length" = .ok .undefined :=
  ⟨rfl, rfl, rfl, rfl, rfl⟩

end ScriptCore.World

import Mathlib.Data.Nat.Find
import ScriptCore.Proofs.Numeric.Exactness
import ScriptCore.Proofs.Value.Joining
import ScriptCore.Value.Property

/-!
# Writes that come to no result

The length of an array is read off a value while nothing may read the array itself. So the write comes to
no result where the value is that array, or holds it inside other arrays. The only other length that cannot
be set is one that no vector can have, and no bound up to `2 ^ 53` allows that
(`World.setProperty?_eq_none_iff`).

The text of a value is read off an array if there is any way down to it at all. A search that follows a
shortest way meets no array twice, so it is stopped neither by the arrays that are open already nor by the
number of arrays (`World.reads_iff`).
-/
namespace ScriptCore.World

/-- A value holds an array inside `n` others, one in another; inside none it is the array itself. -/
inductive HoldsAt (w : World) (target : ArrayId) : Nat → Value → Prop
  | here : HoldsAt w target 0 (.array target)
  | inside {n : Nat} {id : ArrayId} {element : Value} (hmem : element ∈ (w.array id).toList)
    (h : HoldsAt w target n element) : HoldsAt w target (n + 1) (.array id)

/-- A value is an array, or holds it at some depth. -/
def Holds (w : World) (value : Value) (target : ArrayId) : Prop := ∃ n, w.HoldsAt target n value

variable {w : World} {target : ArrayId} {opened : Opened} {value : Value}

theorem holds_self : w.Holds (.array target) target := ⟨0, .here⟩

theorem Holds.inside {id : ArrayId} (h : w.Holds value target) (hmem : value ∈ (w.array id).toList) :
    w.Holds (.array id) target := by
  obtain ⟨n, hn⟩ := h
  exact ⟨n + 1, .inside hmem hn⟩

/-- What the search finds is held. -/
theorem holds_of_readsWithin {fuel : Nat} (h : w.readsWithin target fuel opened value = true) :
    w.Holds value target := by
  induction fuel generalizing opened value with
  | zero =>
    cases value with
    | array id =>
      rw [readsWithin] at h
      split at h
      next heq => exact heq ▸ holds_self
      · simp at h
    | _ => simp [readsWithin] at h
  | succ fuel ih =>
    cases value with
    | array id =>
      rw [readsWithin] at h
      split at h
      next heq => exact heq ▸ holds_self
      · split at h
        · cases h
        · obtain ⟨element, hmem, hfound⟩ := List.any_eq_true.mp h
          exact (ih hfound).inside hmem
    | _ => simp [readsWithin] at h

/-- A search along a shortest way finds the array, as long as no open array holds it as near. -/
theorem readsWithin_of_holdsAt {n fuel : Nat} (h : w.HoldsAt target n value) (hfuel : n ≤ fuel)
    (hleast : ∀ m < n, ¬ w.HoldsAt target m value)
    (hopened : ∀ id, opened.contains id = true → ∀ m ≤ n, ¬ w.HoldsAt target m (.array id)) :
    w.readsWithin target fuel opened value = true := by
  induction h generalizing fuel opened with
  | here => cases fuel <;> simp [readsWithin]
  | @inside n id element hmem helement ih =>
    obtain ⟨fewer, rfl⟩ := Nat.exists_eq_add_of_lt hfuel
    have hholds : w.HoldsAt target (n + 1) (.array id) := .inside hmem helement
    have hother : id ≠ target := by
      rintro rfl
      exact hleast 0 (Nat.succ_pos n) .here
    have hclosed : opened.contains id = false := by
      refine Bool.eq_false_iff.mpr fun hopen => ?_
      exact hopened id hopen (n + 1) (Nat.le_refl _) hholds
    have hfound : w.readsWithin target (n + fewer) (opened.insert id) element = true := by
      refine ih (Nat.le_add_right n fewer) (fun m hm hnear => ?_) fun other hopen m hm hnear => ?_
      · exact hleast (m + 1) (Nat.succ_lt_succ hm) (.inside hmem hnear)
      · rw [Std.TreeSet.contains_insert, Bool.or_eq_true] at hopen
        obtain hsame | hopen := hopen
        · obtain rfl : id = other := by simpa using hsame
          exact hleast m (Nat.lt_succ_of_le hm) hnear
        · exact hopened other hopen m (Nat.le_succ_of_le hm) hnear
    rw [readsWithin, if_neg hother, if_neg (by rw [hclosed]; exact Bool.false_ne_true)]
    exact List.any_eq_true.mpr ⟨element, hmem, hfound⟩

/-- The text of a value is read off the arrays that it holds at any depth, and off no others. -/
theorem reads_iff : w.reads value target = true ↔ w.Holds value target := by
  refine ⟨holds_of_readsWithin, fun h => ?_⟩
  classical
  have hfound : w.readsWithin target (max (Nat.find h) w.arrays.size) ∅ value = true := by
    refine readsWithin_of_holdsAt (Nat.find_spec h) (Nat.le_max_left _ _)
      (fun m hm => Nat.find_min h hm) fun id hopen => ?_
    simp at hopen
  rwa [(joined_of_le (Nat.le_max_right (Nat.find h) w.arrays.size) value).2 target] at hfound

/-- A length is taken if the value denotes one that the bound allows. -/
theorem filter_toNat?_eq_some_iff {bound length : Nat} :
    (Numeric.toNat? (w.number value)).filter (· ≤ Numeric.rounded bound) = some length ↔
      length ≤ Numeric.rounded bound ∧ Numeric.rational? (w.number value) = some (length : ℚ) := by
  rw [Option.filter_eq_some_iff, Numeric.toNat?_eq_some_iff, decide_eq_true_eq, and_comm]

variable (w) (base : Value) (key : String) (value : Value) (maxLength : Nat)

/-- A value gives a length that the bound allows, but that no vector can have. -/
def Overlong : Prop :=
  ∃ length, maxElements < length ∧ length ≤ Numeric.rounded maxLength ∧
    Numeric.rational? (w.number value) = some (length : ℚ)

variable {w value maxLength} in
/-- Bounds that are doubles themselves allow no such length. -/
theorem not_overlong (hbound : maxLength ≤ 2 ^ 53) : ¬ w.Overlong value maxLength := by
  rintro ⟨length, hlong, hlength, -⟩
  rw [Numeric.rounded_eq_self hbound] at hlength
  exact absurd (hlong.trans_le (hlength.trans hbound)) (by decide)

theorem writeOf_eq_circular_iff : w.writeOf base key value maxLength = .circular ↔
    ∃ id, base = .array id ∧ key = "length" ∧ w.Holds value id := by
  simp only [← reads_iff]
  fun_cases writeOf w base key value maxLength
  all_goals simp_all

theorem writeOf_eq_overlong_iff : w.writeOf base key value maxLength = .overlong ↔
    ∃ id, base = .array id ∧ key = "length" ∧ ¬ w.Holds value id ∧ w.Overlong value maxLength := by
  simp only [← reads_iff, Overlong]
  fun_cases writeOf w base key value maxLength
  case case5 id _ _ length hlength hfits =>
    -- a length that a vector can have is the only one that the value gives
    refine iff_of_false nofun ?_
    rintro ⟨-, -, -, -, other, hlong, hother⟩
    obtain rfl : length = other := Option.some.inj (hlength.symm.trans (filter_toNat?_eq_some_iff.mpr hother))
    exact hfits.not_gt hlong
  case case6 id hkey hreads length hlength hlong =>
    have hallowed := filter_toNat?_eq_some_iff.mp hlength
    exact iff_of_true rfl ⟨id, rfl, hkey, hreads, length, Nat.lt_of_not_le hlong, hallowed⟩
  case case7 hnone =>
    refine iff_of_false nofun ?_
    rintro ⟨-, -, -, -, other, -, hother⟩
    exact Option.eq_none_iff_forall_ne_some.mp hnone other (filter_toNat?_eq_some_iff.mpr hother)
  all_goals simp_all

theorem setProperty?_eq_none_iff_writeOf : w.setProperty? base key value maxLength = none ↔
    w.writeOf base key value maxLength = .circular ∨ w.writeOf base key value maxLength = .overlong := by
  rw [setProperty?]
  split <;> simp_all

/-- **Writes come to a result, but for the length of an array that the value holds,** and for one that no vector
can have. Whatever the arrays of the world, a write to a property ends, well or with an error, unless it sets
the length of an array to that array, to one that contains it at some depth, or to a number of elements that
only bounds beyond `2 ^ 53` allow. -/
theorem setProperty?_eq_none_iff (w : World) (base : Value) (key : String) (value : Value) (maxLength : Nat) :
    (w.setProperty? base key value maxLength = none ↔
      ∃ id, base = .array id ∧ key = "length" ∧ (w.Holds value id ∨ w.Overlong value maxLength)) ∧
    (maxLength ≤ 2 ^ 53 → ¬ w.Overlong value maxLength) := by
  refine ⟨?_, ?_⟩
  · rw [setProperty?_eq_none_iff_writeOf, writeOf_eq_circular_iff, writeOf_eq_overlong_iff, ← exists_or]
    refine exists_congr fun id => ?_
    tauto
  · exact not_overlong

/-- Two arrays, the second of which holds the first. -/
def holdingWorld : World where
  arrays := #[#[], #[.array 0]]

/-- The length of an array cannot be set to an array that holds it. -/
theorem no_length_of_holder : holdingWorld.setProperty? (.array 0) "length" (.array 1) 10 = none := rfl

end ScriptCore.World

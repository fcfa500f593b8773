import ScriptCore.Proofs.Value.Opening

/-!
# Joining cyclic arrays

The text of a value follows the paths down its arrays (`World.Joins`): an array on the path to itself is
written as nothing, every other one in full wherever it occurs. The text is joined down to as many levels as
the world has arrays, and however the arrays contain each other that is all of it, since on the way down each
level opens an array that was not open (`World.joins_joined`).
-/
namespace ScriptCore.World

/-- The text of a value inside the arrays of a path. Nullish values and arrays of the path are written as
nothing; any other array is written as the texts of its elements, inside it, with commas in between. -/
inductive Joins (w : World) : List ArrayId → Value → String → Prop
  | nullish {path : List ArrayId} {value : Value} (h : value.isNullish = true) : Joins w path value ""
  | onPath {path : List ArrayId} {id : ArrayId} (h : id ∈ path) : Joins w path (.array id) ""
  | plain {path : List ArrayId} {value : Value} (hnullish : value.isNullish = false)
    (harray : ∀ id, value ≠ .array id) : Joins w path value (w.plainText value)
  | array {path : List ArrayId} {id : ArrayId} {form : Value → String} (h : id ∉ path)
    (helements : ∀ element ∈ (w.array id).toList, Joins w (id :: path) element (form element)) :
    Joins w path (.array id) (",".intercalate ((w.array id).toList.map form))

variable {w : World} {opened : Opened} {id : ArrayId} {path : List ArrayId} {value : Value} {s s' : String}

/-- The paths decide the text. -/
theorem Joins.unique (h : w.Joins path value s) (h' : w.Joins path value s') : s = s' := by
  induction h generalizing s' with
  | nullish hnullish =>
    cases h' with
    | nullish => rfl
    | onPath => cases hnullish
    | plain hplain => simp [hnullish] at hplain
    | array => cases hnullish
  | onPath hpath =>
    cases h' with
    | nullish => rfl
    | onPath => rfl
    | plain _ harray => exact absurd rfl (harray _)
    | array hclosed => exact absurd hpath hclosed
  | plain hplain harray =>
    cases h' with
    | nullish hnullish => simp [hnullish] at hplain
    | onPath => exact absurd rfl (harray _)
    | plain => rfl
    | array => exact absurd rfl (harray _)
  | array hclosed _ ih =>
    cases h' with
    | nullish hnullish => cases hnullish
    | onPath hpath => exact absurd hpath hclosed
    | plain _ harray => exact absurd rfl (harray _)
    | array _ helements =>
      exact congrArg _ (List.map_congr_left fun element hmem => ih element hmem (helements element hmem))

theorem lt_of_mem_array {element : Value} (h : element ∈ (w.array id).toList) : id < w.arrays.size := by
  by_contra hid
  rw [array_of_le (Nat.le_of_not_lt hid)] at h
  cases h

/-- An array that is not open is one of those left, or has no elements. -/
theorem elements_of_unopened {fuel : Nat} (hfuel : (unopened w.arrays.size opened).card ≤ fuel)
    (hclosed : opened.contains id = false) :
    w.array id = #[] ∨ ∃ fewer, fuel = fewer + 1 ∧
      (unopened w.arrays.size (opened.insert id)).card ≤ fewer := by
  by_cases hid : id < w.arrays.size
  · have hless := Nat.lt_of_lt_of_le (card_unopened_insert hid hclosed) hfuel
    obtain ⟨fewer, rfl⟩ := Nat.exists_eq_succ_of_ne_zero (Nat.ne_of_gt (Nat.zero_lt_of_lt hless))
    exact Or.inr ⟨fewer, rfl, Nat.le_of_lt_succ hless⟩
  · exact Or.inl (array_of_le (Nat.le_of_not_lt hid))

/-- Joining follows the paths, if there are as many levels as arrays to open. -/
theorem joins_joined {fuel : Nat} (hpath : ∀ id, id ∈ path ↔ opened.contains id = true)
    (hfuel : (unopened w.arrays.size opened).card ≤ fuel) (value : Value) :
    w.Joins path value (w.joined fuel opened value) := by
  induction fuel generalizing opened path value with
  | zero =>
    cases value with
    | array id =>
      rw [joined_array_zero]
      by_cases hopen : id ∈ path
      · exact .onPath hopen
      · have hempty : (w.array id).toList = [] := by
          obtain hempty | ⟨fewer, hlevel, -⟩ :=
            elements_of_unopened hfuel (Bool.eq_false_iff.mpr (mt (hpath id).mpr hopen))
          · rw [hempty]
          · cases hlevel
        have hjoins : w.Joins path (.array id) (",".intercalate ((w.array id).toList.map fun _ => "")) :=
          .array hopen (by simp [hempty])
        rw [hempty] at hjoins
        exact hjoins
    | undefined => exact .nullish rfl
    | null => exact .nullish rfl
    | _ => exact .plain rfl (fun _ h => nomatch h)
  | succ fuel ih =>
    cases value with
    | array id =>
      rw [joined_array]
      split
      next hopen => exact .onPath ((hpath id).mpr hopen)
      next hclosed =>
        refine .array (mt (hpath id).mp hclosed) fun element hmem => ih (fun other => ?_) ?_ element
        · rw [List.mem_cons, hpath, Std.TreeSet.contains_insert, Bool.or_eq_true, beq_iff_eq,
            Std.LawfulEqCmp.compare_eq_iff_eq, eq_comm]
        · have hless := card_unopened_insert (lt_of_mem_array hmem) (Bool.eq_false_iff.mpr hclosed)
          omega
    | undefined => exact .nullish rfl
    | null => exact .nullish rfl
    | _ => exact .plain rfl (fun _ h => nomatch h)

/-- Beyond the arrays to open, the levels do not matter. -/
theorem joined_eq_joined {fuel fuel' : Nat} (hfuel : (unopened w.arrays.size opened).card ≤ fuel)
    (hfuel' : (unopened w.arrays.size opened).card ≤ fuel') (value : Value) :
    w.joined fuel opened value = w.joined fuel' opened value := by
  have hpath (id : ArrayId) : id ∈ opened.toList ↔ opened.contains id = true := by
    rw [Std.TreeSet.mem_toList, Std.TreeSet.contains_iff_mem]
  exact (joins_joined hpath hfuel value).unique (joins_joined hpath hfuel' value)

/-! ## What a text is read off -/

theorem readsWithin_succ {target : ArrayId} {fuel : Nat} (hfuel : (unopened w.arrays.size opened).card ≤ fuel)
    (value : Value) :
    w.readsWithin target (fuel + 1) opened value = w.readsWithin target fuel opened value := by
  induction fuel using Nat.strongRecOn generalizing opened value with
  | _ fuel ih =>
    cases value with
    | array id =>
      by_cases htarget : id = target
      · cases fuel <;> simp [readsWithin, htarget]
      cases hopen : opened.contains id with
      | true => cases fuel <;> simp [readsWithin, hopen]
      | false =>
        obtain hempty | ⟨fewer, rfl, hfewer⟩ := elements_of_unopened hfuel hopen
        · cases fuel <;> simp [readsWithin, htarget, hopen, hempty]
        · have hrest : w.readsWithin target (fewer + 1) (opened.insert id) =
              w.readsWithin target fewer (opened.insert id) :=
            funext fun element => ih fewer (Nat.lt_succ_self fewer) hfewer element
          rw [readsWithin, readsWithin]
          simp only [hrest]
    | _ => cases fuel <;> simp [readsWithin]

/-- **Joining ends on every world.** More levels than there are arrays change no text, nor what a text is
read off. -/
theorem joined_of_le {fuel : Nat} (hfuel : w.arrays.size ≤ fuel) (value : Value) :
    w.joined fuel ∅ value = w.joined w.arrays.size ∅ value ∧
      ∀ target, w.readsWithin target fuel ∅ value = w.reads value target := by
  have hcard := card_unopened_le w.arrays.size ∅
  refine ⟨joined_eq_joined (Nat.le_trans hcard hfuel) hcard value, fun target => ?_⟩
  induction hfuel with
  | refl => rfl
  | step hle ih => exact (readsWithin_succ (Nat.le_trans hcard hle) value).trans ih

end ScriptCore.World

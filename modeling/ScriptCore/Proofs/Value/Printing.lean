import ScriptCore.Proofs.Value.Joining
import ScriptCore.Value.Picture

/-!
# Printing cyclic and shared values

Arrays and objects may contain each other and themselves, and one of them may stand in many places. Whatever
they look like, the text and the debugging text of a value come to an end and depend on nothing but the paths
down to its parts: what is on the path to itself is cut off, and what merely occurs again is written again
(`World.printing_follows_paths`).
-/
namespace ScriptCore.World

/-- The debugging text of a value inside the things of a path. An array or object of the path is written
`<cycle>`; any other one is written with the texts of what it holds, inside it: elements between brackets,
fields between braces after their quoted names, and commas between them. -/
inductive Shows (w : World) : List Thing → Value → String → Prop
  | arrayOnPath {path : List Thing} {id : ArrayId} (h : .array id ∈ path) : Shows w path (.array id) "<cycle>"
  | objectOnPath {path : List Thing} {id : ObjectId} (h : .object id ∈ path) : Shows w path (.object id) "<cycle>"
  | plain {path : List Thing} {value : Value} (harray : ∀ id, value ≠ .array id)
    (hobject : ∀ id, value ≠ .object id) : Shows w path value (w.plainDebug value)
  | array {path : List Thing} {id : ArrayId} {form : Value → String} (h : .array id ∉ path)
    (helements : ∀ element ∈ (w.array id).toList, Shows w (.array id :: path) element (form element)) :
    Shows w path (.array id) ("[" ++ ", ".intercalate ((w.array id).toList.map form) ++ "]")
  | object {path : List Thing} {id : ObjectId} {form : Value → String} (h : .object id ∉ path)
    (hfields : ∀ entry ∈ (w.object id).entries, Shows w (.object id :: path) entry.2 (form entry.2)) :
    Shows w path (.object id) ("\x7b" ++ ", ".intercalate
      ((w.object id).entries.map fun entry => Text.quoted entry.1 ++ ": " ++ form entry.2) ++ "\x7d")

variable {w : World} {opened : OpenThings} {path : List Thing} {value : Value} {s s' : String}

/-- The paths decide the debugging text. -/
theorem Shows.unique (h : w.Shows path value s) (h' : w.Shows path value s') : s = s' := by
  induction h generalizing s' with
  | arrayOnPath hpath =>
    cases h' with
    | arrayOnPath => rfl
    | plain harray => exact absurd rfl (harray _)
    | array hclosed => exact absurd hpath hclosed
  | objectOnPath hpath =>
    cases h' with
    | objectOnPath => rfl
    | plain _ hobject => exact absurd rfl (hobject _)
    | object hclosed => exact absurd hpath hclosed
  | plain harray hobject =>
    cases h' with
    | arrayOnPath => exact absurd rfl (harray _)
    | objectOnPath => exact absurd rfl (hobject _)
    | plain => rfl
    | array => exact absurd rfl (harray _)
    | object => exact absurd rfl (hobject _)
  | array hclosed _ ih =>
    cases h' with
    | arrayOnPath hpath => exact absurd hpath hclosed
    | plain harray => exact absurd rfl (harray _)
    | array _ helements => rw [List.map_congr_left fun element hmem => ih element hmem (helements element hmem)]
  | object hclosed _ ih =>
    cases h' with
    | objectOnPath hpath => exact absurd hpath hclosed
    | plain _ hobject => exact absurd rfl (hobject _)
    | object _ hfields =>
      rw [List.map_congr_left fun entry hmem => by rw [ih entry hmem (hfields entry hmem)]]

/-! ## What the writer does -/

/-- What is written in brackets is the text of an array, if its elements have those texts. -/
theorem shows_bracketed {id : ArrayId} {form : Value → String} (h : .array id ∉ path)
    (helements : ∀ element ∈ (w.array id).toList, w.Shows (.array id :: path) element (form element)) :
    w.Shows path (.array id) (bracketed ((w.array id).toList.map form)) := .array h helements

/-- What is written in braces is the text of an object, if its fields have those texts. -/
theorem shows_braced {id : ObjectId} {form : Value → String} (h : .object id ∉ path)
    (hfields : ∀ entry ∈ (w.object id).entries, w.Shows (.object id :: path) entry.2 (form entry.2)) :
    w.Shows path (.object id) (braced ((w.object id).entries.map fun entry => (entry.1, form entry.2))) := by
  rw [braced, List.map_map]
  exact .object h hfields

/-- The text that the writer gives a value inside what is open. -/
def debugged (w : World) (fuel : Nat) (opened : OpenThings) (value : Value) : String :=
  (w.debugging fuel value opened).1

theorem debugged_array (fuel : Nat) (id : ArrayId) : w.debugged (fuel + 1) opened (.array id) =
    if opened.arrays.contains id then "<cycle>" else
      bracketed ((w.array id).toList.map (w.debugged fuel ((OpenThings.arrayGuard id).enter opened))) := by
  have hcontent := Restores.mapM_fst OpenThings.equivalence (w.restores_debugging fuel) (w.array id).toList
    ((OpenThings.arrayGuard id).enter opened)
  rw [debugged, debugging, Guard.write_fst]
  exact congrArg (ite _ _) (congrArg bracketed hcontent)

theorem debugged_object (fuel : Nat) (id : ObjectId) : w.debugged (fuel + 1) opened (.object id) =
    if opened.objects.contains id then "<cycle>" else
      braced ((w.object id).entries.map fun entry =>
        (entry.1, w.debugged fuel ((OpenThings.objectGuard id).enter opened) entry.2)) := by
  have hcontent := Restores.mapM_fst OpenThings.equivalence (restores_entry (w.restores_debugging fuel))
    (w.object id).entries ((OpenThings.objectGuard id).enter opened)
  rw [debugged, debugging, Guard.write_fst]
  exact congrArg (ite _ _) (congrArg braced hcontent)

theorem debugged_array_zero (id : ArrayId) : w.debugged 0 opened (.array id) =
    if opened.arrays.contains id then "<cycle>" else bracketed [] := by
  rw [debugged, debugging, Guard.write_fst]
  rfl

theorem debugged_object_zero (id : ObjectId) : w.debugged 0 opened (.object id) =
    if opened.objects.contains id then "<cycle>" else braced [] := by
  rw [debugged, debugging, Guard.write_fst]
  rfl

theorem shows_debugged_plain (harray : ∀ id, value ≠ .array id) (hobject : ∀ id, value ≠ .object id)
    (fuel : Nat) : w.Shows path value (w.debugged fuel opened value) := by
  have hplain : w.debugged fuel opened value = w.plainDebug value := by
    cases value with
    | array id => exact absurd rfl (harray id)
    | object id => exact absurd rfl (hobject id)
    | _ => cases fuel <;> rfl
  rw [hplain]
  exact .plain harray hobject

/-- What is open are the things of a path. -/
structure OpenThings.Hold (opened : OpenThings) (path : List Thing) : Prop where
  arrays : ∀ id, .array id ∈ path ↔ opened.arrays.contains id = true
  objects : ∀ id, .object id ∈ path ↔ opened.objects.contains id = true

/-- How many arrays and objects of a world are not open. -/
def unopenedThings (w : World) (opened : OpenThings) : Nat :=
  (unopened w.arrays.size opened.arrays).card + (unopened w.objects.size opened.objects).card

theorem lt_of_mem_object {id : ObjectId} {entry : String × Value} (h : entry ∈ (w.object id).entries) :
    id < w.objects.size := by
  by_contra hid
  rw [object_of_le (Nat.le_of_not_lt hid)] at h
  cases h

theorem OpenThings.Hold.enter_array (h : opened.Hold path) (id : ArrayId) :
    ((arrayGuard id).enter opened).Hold (.array id :: path) where
  arrays other := by
    rw [arrayGuard, List.mem_cons, Thing.array.injEq, h.arrays, Std.TreeSet.contains_insert, Bool.or_eq_true,
      beq_iff_eq, Std.LawfulEqCmp.compare_eq_iff_eq, eq_comm]
  objects other := by simpa [arrayGuard] using h.objects other

theorem OpenThings.Hold.enter_object (h : opened.Hold path) (id : ObjectId) :
    ((objectGuard id).enter opened).Hold (.object id :: path) where
  arrays other := by simpa [objectGuard] using h.arrays other
  objects other := by
    rw [objectGuard, List.mem_cons, Thing.object.injEq, h.objects, Std.TreeSet.contains_insert, Bool.or_eq_true,
      beq_iff_eq, Std.LawfulEqCmp.compare_eq_iff_eq, eq_comm]

theorem unopenedThings_enter_array {id : ArrayId} (hid : id < w.arrays.size)
    (hclosed : ¬ opened.arrays.contains id = true) :
    w.unopenedThings ((OpenThings.arrayGuard id).enter opened) < w.unopenedThings opened :=
  Nat.add_lt_add_right (card_unopened_insert hid (Bool.eq_false_iff.mpr hclosed)) _

theorem unopenedThings_enter_object {id : ObjectId} (hid : id < w.objects.size)
    (hclosed : ¬ opened.objects.contains id = true) :
    w.unopenedThings ((OpenThings.objectGuard id).enter opened) < w.unopenedThings opened :=
  Nat.add_lt_add_left (card_unopened_insert hid (Bool.eq_false_iff.mpr hclosed)) _

/-- The writer follows the paths, if there are as many levels as things to open. -/
theorem shows_debugged {fuel : Nat} (hpath : opened.Hold path) (hfuel : w.unopenedThings opened ≤ fuel)
    (value : Value) : w.Shows path value (w.debugged fuel opened value) := by
  induction fuel generalizing opened path value with
  | zero =>
    cases value with
    | array id =>
      rw [debugged_array_zero]
      split
      next hopen => exact .arrayOnPath ((hpath.arrays id).mpr hopen)
      next hclosed =>
        have hnone (element : Value) : element ∉ (w.array id).toList := fun hmem => by
          have hless := unopenedThings_enter_array (lt_of_mem_array hmem) hclosed
          omega
        have hshows := @shows_bracketed w path id (fun _ => "") (mt (hpath.arrays id).mp hclosed)
          fun element hmem => absurd hmem (hnone element)
        rwa [List.eq_nil_iff_forall_not_mem.mpr hnone] at hshows
    | object id =>
      rw [debugged_object_zero]
      split
      next hopen => exact .objectOnPath ((hpath.objects id).mpr hopen)
      next hclosed =>
        have hnone (entry : String × Value) : entry ∉ (w.object id).entries := fun hmem => by
          have hless := unopenedThings_enter_object (lt_of_mem_object hmem) hclosed
          omega
        have hshows := @shows_braced w path id (fun _ => "") (mt (hpath.objects id).mp hclosed)
          fun entry hmem => absurd hmem (hnone entry)
        rwa [List.eq_nil_iff_forall_not_mem.mpr hnone] at hshows
    | _ => exact shows_debugged_plain (by nofun) (by nofun) _
  | succ fuel ih =>
    cases value with
    | array id =>
      rw [debugged_array]
      split
      next hopen => exact .arrayOnPath ((hpath.arrays id).mpr hopen)
      next hclosed =>
        refine shows_bracketed (mt (hpath.arrays id).mp hclosed) fun element hmem => ?_
        have hless := unopenedThings_enter_array (lt_of_mem_array hmem) hclosed
        exact ih (hpath.enter_array id) (by omega) element
    | object id =>
      rw [debugged_object]
      split
      next hopen => exact .objectOnPath ((hpath.objects id).mpr hopen)
      next hclosed =>
        refine shows_braced (mt (hpath.objects id).mp hclosed) fun entry hmem => ?_
        have hless := unopenedThings_enter_object (lt_of_mem_object hmem) hclosed
        exact ih (hpath.enter_object id) (by omega) entry.2
    | _ => exact shows_debugged_plain (by nofun) (by nofun) _

theorem OpenThings.hold_empty : OpenThings.Hold {} [] where
  arrays id := by simp
  objects id := by simp

/-- The debugging text of a value, written down to at least as many levels as there are things. -/
theorem shows_debugged_of_le {fuel : Nat} (hfuel : w.arrays.size + w.objects.size ≤ fuel) (value : Value) :
    w.Shows [] value (w.debugged fuel {} value) :=
  shows_debugged OpenThings.hold_empty
    (Nat.le_trans (Nat.add_le_add (card_unopened_le _ _) (card_unopened_le _ _)) hfuel) value

/-- **Printing ends and follows the paths.** In every world the text of an array is the one its paths give,
and so is the debugging text of every value; more levels than there are things to open change neither; and
every call of the two writers, at any depth, leaves what is open as it found it. -/
theorem printing_follows_paths (w : World) :
    (∀ id s, w.text (.array id) = s ↔ w.Joins [] (.array id) s) ∧
      (∀ value s, w.debug value = s ↔ w.Shows [] value s) ∧
      (∀ more value, (w.joining (w.arrays.size + more) value ∅).1 = (w.joining w.arrays.size value ∅).1) ∧
      (∀ more value, (w.debugging (w.arrays.size + w.objects.size + more) value {}).1 = w.debug value) ∧
      (∀ fuel value opened, (w.joining fuel value opened).2.Equiv opened) ∧
      ∀ fuel value opened, (w.debugging fuel value opened).2.Same opened := by
  have hjoins (id : ArrayId) : w.Joins [] (.array id) (w.text (.array id)) :=
    joins_joined (by simp) (card_unopened_le _ _) _
  have hshows (value : Value) : w.Shows [] value (w.debug value) := shows_debugged_of_le (Nat.le_refl _) value
  refine ⟨fun id s => ⟨?_, (hjoins id).unique⟩, fun value s => ⟨?_, (hshows value).unique⟩, fun more value => ?_,
    fun more value => ?_, fun fuel value => (w.restores_joining fuel value).state,
    fun fuel value => (w.restores_debugging fuel value).state⟩
  · rintro rfl
    exact hjoins id
  · rintro rfl
    exact hshows value
  · exact (joined_of_le (Nat.le_add_right _ more) value).1
  · exact (shows_debugged_of_le (Nat.le_add_right _ more) value).unique (hshows value)

-- The first array holds itself, which is cut off, and the second one twice, which is not.
example : ({ arrays := #[#[.array 0, .array 1, .array 1], #[.bool true]] } : World).debug (.array 0) =
    "[<cycle>, [true], [true]]" := by decide +kernel

end ScriptCore.World

import ScriptCore.Proofs.Eval.Effect
import ScriptCore.Proofs.Eval.Limits
import ScriptCore.Proofs.Value.Storing

/-!
# The bound on the length of arrays

The bound is one on writes. A literal, a spread, the arguments of a call and the rest of a pattern make
arrays as long as they need to be, and afterwards an array grows by writes to its indices and its length
only, which are refused beyond the bound and then change nothing. So through a whole run no array comes to
have more elements than it had at first, or than the bound allows, which lengths are compared with as a double
(`Evaluator.arrays_bounded`).
-/
namespace ScriptCore

/-- Every array of a world is there in a later one, with no more elements than it had or than a bound
allows. -/
structure World.ArraysWithin (bound : Nat) (w w' : World) : Prop where
  size_le : w.arrays.size ≤ w'.arrays.size
  length_le : ∀ id < w.arrays.size, (w'.array id).size ≤ max (w.array id).size bound

/-- The functions of a host may make arrays, but leave those that there are. -/
def Host.LeavesArrays (host : Host) : Prop :=
  ∀ name native, host.native name = some native → ∀ receiver args (w : World),
    w.arrays.size ≤ (native receiver args w).2.arrays.size ∧
      ∀ id < w.arrays.size, (native receiver args w).2.array id = w.array id

/-- The number of elements that a write to a property of an array takes, if it is one to an index or one
of a whole number to the length. -/
def World.elementsFor? (w : World) (key : String) (value : Value) : Option Nat :=
  if key = "length" then Numeric.toNat? (w.number value) else (arrayIndex? key).map (· + 1)

/-- What the number of elements is compared with, the bound itself for an index and a double for a length. -/
def boundFor (key : String) (bound : Nat) : Nat := if key = "length" then Numeric.rounded bound else bound

namespace World

variable {bound : Nat} {w w' : World}

namespace ArraysWithin

theorem of_eq (h : w'.arrays = w.arrays) : ArraysWithin bound w w' where
  size_le := h ▸ Nat.le_refl _
  length_le id _ := by
    rw [array, array, h]
    exact Nat.le_max_left _ _

theorem trans {w₁ w₂ w₃ : World} (h : ArraysWithin bound w₁ w₂) (h' : ArraysWithin bound w₂ w₃) :
    ArraysWithin bound w₁ w₃ where
  size_le := Nat.le_trans h.size_le h'.size_le
  length_le id hid := by
    have hfirst := h.length_le id hid
    have hsecond := h'.length_le id (Nat.lt_of_lt_of_le hid h.size_le)
    omega

instance : IsTrans World (ArraysWithin bound) := ⟨fun _ _ _ => trans⟩

theorem newArray (items : Array Value) : ArraysWithin bound w (w.newArray items).2 where
  size_le := by simp [World.newArray]
  length_le id hid := by
    have hsame : (w.newArray items).2.array id = w.array id := by
      simp [World.newArray, array, Array.getElem?_push_lt hid, hid]
    rw [hsame]
    exact Nat.le_max_left _ _

/-- An array may be changed so that it has no more elements than it had or than the bound allows. -/
theorem modifyArray {id : ArrayId} {f : Array Value → Array Value}
    (h : (f (w.array id)).size ≤ max (w.array id).size bound) :
    ArraysWithin bound w (w.modifyArray id f) where
  size_le := by simp [World.modifyArray]
  length_le other hother := by
    by_cases hid : id = other
    · subst hid
      rwa [array_modifyArray hother]
    · rw [array_modifyArray_other (Ne.symm hid)]
      exact Nat.le_max_left _ _

end ArraysWithin

/-! ## Writes -/

/-- A write takes no more elements than the bound allows. -/
def Write.Fits (bound : Nat) : Write → Prop
  | .length _ count => count ≤ bound
  | .element _ index => index + 1 ≤ bound
  | _ => True

variable {base value : Value} {key : String}

/-- An index that the bound allows is exact as a double, so that the rounded bound allows it too. -/
theorem writeOf_fits : (w.writeOf base key value bound).Fits (Numeric.rounded bound) := by
  fun_cases writeOf w base key value bound with
  | case5 id hkey hreads count hcount => exact (filter_toNat?_eq_some_iff.mp hcount).1
  | case8 id hkey index hindex hfits =>
    have hsmall : index < 2 ^ 32 - 1 := (arrayIndex?_eq_some_iff.mp hindex).1
    have hexact : Numeric.rounded (index + 1) = index + 1 := Numeric.rounded_eq_self (by omega)
    calc index + 1 = Numeric.rounded (index + 1) := hexact.symm
      _ ≤ Numeric.rounded bound := Numeric.rounded_mono hfits
  | _ => trivial

theorem arraysWithin_applyWrite {write : Write} (h : write.Fits bound) :
    ArraysWithin bound w (w.applyWrite write key value) := by
  cases write with
  | length id length =>
    refine .modifyArray ?_
    rw [size_resized]
    exact Nat.le_trans h (Nat.le_max_right _ _)
  | element id index =>
    refine .modifyArray ?_
    rw [Array.size_setIfInBounds]
    split
    · exact Nat.le_max_left _ _
    · rw [size_resized]
      exact Nat.le_trans h (Nat.le_max_right _ _)
  | _ => exact .of_eq rfl

/-- A write grows an array up to the bound only. -/
theorem arraysWithin_setProperty? {result : Except Cause Unit × World}
    (h : w.setProperty? base key value bound = some result) :
    ArraysWithin (Numeric.rounded bound) w result.2 := by
  obtain ⟨-, -, rfl⟩ | rfl := w.setProperty?_cases h
  · exact .of_eq rfl
  · exact arraysWithin_applyWrite writeOf_fits

theorem arraysWithin_deleteProperty (base : Value) (key : String) :
    ArraysWithin bound w (w.deleteProperty base key).2 := by
  cases base with
  | array id =>
    rw [deleteProperty]
    simp only
    split
    · exact .modifyArray (by simp)
    · exact .of_eq rfl
  | _ => exact .of_eq rfl

/-- A write that takes more elements than the bound allows is refused, and changes nothing. -/
theorem setProperty?_of_exceeds {id : ArrayId} {count : Nat}
    (hcount : w.elementsFor? key value = some count) (hexceeds : boundFor key bound < count)
    (hholds : key = "length" → ¬ w.Holds value id) :
    w.setProperty? (.array id) key value bound =
      some (.error (.invalidArrayLength (if key = "length" then w.text value else key)), w) := by
  refine setProperty?_refused hholds ?_
  rw [elementsFor?] at hcount
  rw [boundFor] at hexceeds
  split at hcount
  next hkey =>
    rw [if_pos hkey] at hexceeds
    refine Or.inl ⟨hkey, fun ⟨length, hlength, hnumber⟩ => ?_⟩
    rw [← Numeric.toNat?_eq_some_iff, hcount] at hnumber
    cases hnumber
    omega
  next hkey =>
    rw [if_neg hkey] at hexceeds
    obtain ⟨index, hindex, rfl⟩ := Option.map_eq_some_iff.mp hcount
    exact Or.inr ⟨index, arrayIndex?_eq_some_iff.mp hindex, hexceeds⟩

/-- **Effects keep to the bound.** -/
theorem Effect.arraysWithin {ev : Evaluator} (hhost : ev.host.LeavesArrays) (h : Effect ev w w') :
    ArraysWithin (Numeric.rounded ev.limits.maxArrayLength) w w' := by
  cases h with
  | newArray items => exact .newArray items
  | newObject fields => exact .of_eq rfl
  | newClosure closure => exact .of_eq rfl
  | scopes h => exact .of_eq rfl
  | write h => exact arraysWithin_setProperty? h
  | delete base key => exact arraysWithin_deleteProperty base key
  | native h receiver args =>
    obtain ⟨hsize, hsame⟩ := hhost _ _ h receiver args w
    refine ⟨hsize, fun id hid => ?_⟩
    rw [hsame id hid]
    exact Nat.le_max_left _ _

theorem arraysWithin_of_effects {ev : Evaluator} (hhost : ev.host.LeavesArrays)
    (h : Relation.ReflTransGen (Effect ev) w w') :
    ArraysWithin (Numeric.rounded ev.limits.maxArrayLength) w w' := by
  induction h with
  | refl => exact .of_eq rfl
  | tail _ hstep ih => exact ih.trans (hstep.arraysWithin hhost)

end World

namespace Evaluator

/-- **Arrays grow up to the bound only.** Between any two worlds that a run goes through, each array of the
earlier one stays and comes to have no more elements than it had there or than the bound allows. And a
write that takes more is refused with an error that names the length or the index, and changes nothing. Up to
`2 ^ 53` the bound for lengths is the bound itself. -/
theorem arrays_bounded (ev : Evaluator) (hrules : ev.rules = RuleTable.default)
    (hresolver : ev.resolver.rules = Hoist.defaultRules) (hhost : ev.host.LeavesArrays) (steps : Nat)
    (task : Task) (w : World) :
    (ev.worlds steps task w).Pairwise (World.ArraysWithin (Numeric.rounded ev.limits.maxArrayLength)) ∧
      (∀ (w' : World) (id : ArrayId) (key : String) (value : Value) (count : Nat),
        w'.elementsFor? key value = some count → boundFor key ev.limits.maxArrayLength < count →
        (key = "length" → ¬ w'.Holds value id) →
          w'.setProperty? (.array id) key value ev.limits.maxArrayLength =
            some (.error (.invalidArrayLength (if key = "length" then w'.text value else key)), w')) ∧
      (ev.limits.maxArrayLength ≤ 2 ^ 53 →
        Numeric.rounded ev.limits.maxArrayLength = ev.limits.maxArrayLength) := by
  refine ⟨pairwise_worlds fun s hs => ?_, fun w' id key value count hcount hexceeds hholds =>
    World.setProperty?_of_exceeds hcount hexceeds hholds, Numeric.rounded_eq_self⟩
  exact World.arraysWithin_of_effects hhost (stretches_effects hrules hresolver s hs)

end Evaluator

/-- The functions of the standard host leave the arrays that there are. -/
theorem Host.standard_leavesArrays : Host.standard.LeavesArrays := by
  intro name native hnative receiver args w
  have hfind : Host.Native.find? name = some native := hnative
  unfold Host.Native.find? at hfind
  split at hfind <;> cases hfind
  case h_3 =>
    refine ⟨by simp [Host.Native.pack, World.newArray], fun id hid => ?_⟩
    simp [Host.Native.pack, World.newArray, World.array, Array.getElem?_push_lt hid, hid]
  all_goals exact ⟨Nat.le_refl _, fun _ _ => rfl⟩

/-- `const a = [1, 2, 3]; a["3"] = true;` -/
def growingProgram : Json :=
  let number (value : Int) : Json := .ofNode "Literal" [("value", .integer value)]
  let declaration := Json.ofNode "VariableDeclaration" [("kind", .string "const"),
    ("declarations", .array [.ofNode "VariableDeclarator" [("id", .ofName "a"),
      ("init", .ofNode "ArrayExpression" [("elements", .array [number 1, number 2, number 3])])]])]
  let place := Json.ofNode "MemberExpression" [("object", .ofName "a"),
    ("property", .ofNode "Literal" [("value", .string "3")]), ("computed", .bool true)]
  let assignment := Json.ofNode "AssignmentExpression" [("operator", .string "="), ("left", place),
    ("right", .ofNode "Literal" [("value", .bool true)])]
  .ofNode "Program" [("body", .array [declaration,
    .ofNode "ExpressionStatement" [("expression", assignment)]])]

namespace Evaluator

/-- No array may grow beyond two elements. -/
def pairing : Evaluator := { standard with limits := { maxArrayLength := 2 } }

theorem pairing_rules : pairing.rules = RuleTable.default := by rw [pairing, standard]

theorem pairing_resolver : pairing.resolver.rules = Hoist.defaultRules := by rw [pairing, standard]

/-- Whether a run is refused to write an index, in a world whose first array has three elements. -/
def isRefusedBeyondThree : Run (Except Abrupt Value × World) → Bool
  | .ended (.error (.failure ⟨.invalidArrayLength "3", _, _⟩), w) => (w.array 0).size == 3
  | _ => false

theorem exists_of_isRefused {run : Run (Except Abrupt Value × World)}
    (h : isRefusedBeyondThree run = true) : ∃ node thrown w,
      run = .ended (.error (.failure ⟨.invalidArrayLength "3", node, thrown⟩), w) ∧
        (w.array 0).size = 3 := by
  unfold isRefusedBeyondThree at h
  split at h
  next node thrown w => exact ⟨node, thrown, w, rfl, by simpa using h⟩
  · cases h

theorem exists_refused : ∃ t r w₁ node thrown w₂, Tree.ofJson growingProgram = .ok t ∧
    pairing.resolve t 0 (World.newRootScope {}).2 = (.ok r, w₁) ∧
    pairing.perform 40 (.eval ⟨r.tree, r.links, 0⟩ r.links.root r.links.rootScope) w₁ =
      .ended (.error (.failure ⟨.invalidArrayLength "3", node, thrown⟩), w₂) ∧
    (w₂.array 0).size = 3 := by
  obtain ⟨t, ht, hfound⟩ := Tree.exists_ofJson (j := growingProgram)
    (p := fun t => pairing.resolvesTo t fun r w => isRefusedBeyondThree
      (pairing.perform 40 (.eval ⟨r.tree, r.links, 0⟩ r.links.root r.links.rootScope) w))
    (by decide +kernel)
  obtain ⟨r, w₁, hresolve, hrefused⟩ := exists_of_resolvesTo hfound
  obtain ⟨node, thrown, w₂, hrun, hsize⟩ := exists_of_isRefused hrefused
  exact ⟨t, r, w₁, node, thrown, w₂, ht, hresolve, hrun, hsize⟩

theorem arrays_bounded_index : ∃ t r w₁ node thrown w₂, Tree.ofJson growingProgram = .ok t ∧
    pairing.resolve t 0 (World.newRootScope {}).2 = (.ok r, w₁) ∧
    pairing.perform 40 (.eval ⟨r.tree, r.links, 0⟩ r.links.root r.links.rootScope) w₁ =
      .ended (.error (.failure ⟨.invalidArrayLength "3", node, thrown⟩), w₂) ∧
    (pairing.worlds 40 (.eval ⟨r.tree, r.links, 0⟩ r.links.root r.links.rootScope) w₁).Pairwise
      (World.ArraysWithin 2) ∧
    w₂.setProperty? (.array 0) "3" (.bool true) 2 = some (.error (.invalidArrayLength "3"), w₂) := by
  obtain ⟨t, r, w₁, node, thrown, w₂, ht, hresolve, hrun, -⟩ := exists_refused
  obtain ⟨hworlds, hwrites, hrounded⟩ := arrays_bounded pairing pairing_rules pairing_resolver
    Host.standard_leavesArrays 40 (.eval ⟨r.tree, r.links, 0⟩ r.links.root r.links.rootScope) w₁
  have hcount : w₂.elementsFor? "3" (.bool true) = some 4 := by
    rw [World.elementsFor?, if_neg (by decide)]
    decide +kernel
  have hwrite := hwrites w₂ 0 "3" (.bool true) 4 hcount (by decide) fun hkey => absurd hkey (by decide)
  rw [hrounded (by decide)] at hworlds
  exact ⟨t, r, w₁, node, thrown, w₂, ht, hresolve, hrun, hworlds, hwrite⟩

/-- A literal makes an array that is longer than the bound. -/
theorem literal_exceeds_bound : ∃ t r w₁ outcome w₂, Tree.ofJson growingProgram = .ok t ∧
    pairing.resolve t 0 (World.newRootScope {}).2 = (.ok r, w₁) ∧
    pairing.perform 40 (.eval ⟨r.tree, r.links, 0⟩ r.links.root r.links.rootScope) w₁ =
      .ended (outcome, w₂) ∧
    pairing.limits.maxArrayLength < (w₂.array 0).size := by
  obtain ⟨t, r, w₁, node, thrown, w₂, ht, hresolve, hrun, hsize⟩ := exists_refused
  refine ⟨t, r, w₁, _, w₂, ht, hresolve, hrun, ?_⟩
  rw [hsize]
  decide

end Evaluator

end ScriptCore

import Mathlib.Data.List.Basic
import ScriptCore.Proofs.Tree.Reading

/-!
# What a value is to an import

An import does not see every difference between two values. Left of a value, as far as it does, is its
essence: dropped members are gone, and so are plain objects without members; the `type` of a node comes
first; numbers are doubles.

Plain objects reach a tree as paths of names with something at their ends (`Json.leaves`). Where the
members of every object have names of their own, putting what stands at the paths where they lead gives
the essence back (`unflatten_leaves`).
-/
namespace ScriptCore

namespace Json

/-! ## Names -/

mutual

/-- Members of an object have names of their own, as in a map, and no name has a dot in it. -/
def WellNamed : Json → Prop
  | .array items => WellNamedItems items
  | .object members => (members.map Prod.fst).Nodup ∧ WellNamedMembers members
  | _ => True

def WellNamedItems : List Json → Prop
  | [] => True
  | item :: rest => item.WellNamed ∧ WellNamedItems rest

def WellNamedMembers : List (String × Json) → Prop
  | [] => True
  | (name, value) :: rest => '.' ∉ name.toList ∧ value.WellNamed ∧ WellNamedMembers rest

end

/-! ## Essence -/

/-- The member of the given name, unless it is a plain object without members. -/
def entry (name : String) : Json → List (String × Json)
  | .object [] => []
  | value => [(name, value)]

section Essence

variable (canon : Float → Float)

mutual

/-- What an import tells of a value; `canon` says which doubles are taken for the same. -/
def essence : Json → Json
  | .integer value => .number (canon (Numeric.ofInt value))
  | .number value => .number (canon value)
  | .array items => .array (essenceOfItems items)
  | .object members =>
    .object ((lookupEntry "type" members).toList.map (fun kind => ("type", kind)) ++
      essenceOfMembers members)
  | j => j

def essenceOfItems : List Json → List Json
  | [] => []
  | item :: rest => item.essence :: essenceOfItems rest

/-- The members other than `type`. -/
def essenceOfMembers : List (String × Json) → List (String × Json)
  | [] => []
  | (name, value) :: rest =>
    (if Import.leftOut name then [] else entry name value.essence) ++ essenceOfMembers rest

end

mutual

/-- What stands in a value, with the names that lead there through plain objects. -/
def leaves : Json → List (List String × Json)
  | .object members =>
    match lookupEntry "type" members with
    | some _ => [([], essence canon (.object members))]
    | none => leavesOfMembers members
  | j => [([], j.essence canon)]

def leavesOfMembers : List (String × Json) → List (List String × Json)
  | [] => []
  | (name, value) :: rest =>
    (if Import.leftOut name then []
      else value.leaves.map fun leaf => (name :: leaf.1, leaf.2)) ++ leavesOfMembers rest

end

end Essence

/-! ## Paths -/

/-- The members of the plain object under a name. -/
def membersAt (name : String) (members : List (String × Json)) : List (String × Json) :=
  match lookupEntry name members with
  | some (.object inner) => inner
  | _ => []

/-- Put a value where a path of names leads, through plain objects that are made as needed. -/
def insertPath : List String → Json → List (String × Json) → List (String × Json)
  | [], _, members => members
  | [name], value, members => insertEntry name value members
  | name :: rest, value, members =>
    insertEntry name (.object (insertPath rest value (membersAt name members))) members

/-- The members that paths with values at their ends stand for. -/
def unflatten (leaves : List (List String × Json)) : List (String × Json) :=
  leaves.foldl (fun members leaf => insertPath leaf.1 leaf.2 members) []

variable {name : String} {value : Json} {acc members : List (String × Json)}
  {path : List String} {es : List (List String × Json)}

theorem insertPath_cons (hpath : path ≠ []) : insertPath (name :: path) value members =
    insertEntry name (.object (insertPath path value (membersAt name members))) members := by
  cases path with
  | nil => exact absurd rfl hpath
  | cons => rfl

theorem insertPath_ne_nil (hpath : path ≠ []) : insertPath path value members ≠ [] := by
  have hinsert : ∀ (name : String) (value : Json), insertEntry name value members ≠ [] := by
    intro name value
    cases members with
    | nil => simp [insertEntry]
    | cons member rest =>
      rw [insertEntry]
      split <;> simp
  cases path with
  | nil => exact absurd rfl hpath
  | cons name rest =>
    cases rest with
    | nil => exact hinsert name value
    | cons => exact hinsert name _

theorem unflatten_ne_nil (hes : es ≠ []) (hpaths : ∀ e ∈ es, e.1 ≠ []) : unflatten es ≠ [] := by
  obtain ⟨front, e, rfl⟩ := (List.eq_nil_or_concat' es).resolve_left hes
  rw [unflatten, List.foldl_append]
  exact insertPath_ne_nil (hpaths e (by simp))

/-- Overwriting the last entry. -/
theorem insertEntry_last (hname : name ∉ acc.map Prod.fst) (value new : Json) :
    insertEntry name new (acc ++ [(name, value)]) = acc ++ [(name, new)] ∧
      lookupEntry name (acc ++ [(name, value)]) = some value := by
  induction acc with
  | nil => simp [insertEntry, lookupEntry]
  | cons entry rest ih =>
    rw [List.map_cons, List.mem_cons, not_or] at hname
    obtain ⟨hinsert, hlookup⟩ := ih hname.2
    have hne : entry.1 ≠ name := Ne.symm hname.1
    rw [List.cons_append, insertEntry, if_neg hne, lookupEntry, if_neg hne, hinsert, hlookup]
    exact ⟨rfl, rfl⟩

/-- What is put under the name of the last entry, a plain object, is put into it. -/
theorem foldl_insertPath_last (hname : name ∉ acc.map Prod.fst) (hpaths : ∀ e ∈ es, e.1 ≠ [])
    (inner : List (String × Json)) :
    (es.map fun e => (name :: e.1, e.2)).foldl (fun members e => insertPath e.1 e.2 members)
        (acc ++ [(name, .object inner)]) =
      acc ++ [(name, .object (es.foldl (fun members e => insertPath e.1 e.2 members) inner))] := by
  induction es generalizing inner with
  | nil => rfl
  | cons e rest ih =>
    obtain ⟨hinsert, hlookup⟩ := insertEntry_last hname (.object inner)
      (.object (insertPath e.1 e.2 inner))
    rw [List.map_cons, List.foldl_cons, List.foldl_cons, insertPath_cons (hpaths e List.mem_cons_self),
      membersAt, hlookup, hinsert]
    exact ih (fun e he => hpaths e (List.mem_cons_of_mem _ he)) _

/-- Some paths that begin with a new name make one new entry, a plain object. -/
theorem foldl_insertPath_new (hname : name ∉ acc.map Prod.fst) (hes : es ≠ [])
    (hpaths : ∀ e ∈ es, e.1 ≠ []) :
    (es.map fun e => (name :: e.1, e.2)).foldl (fun members e => insertPath e.1 e.2 members) acc =
      acc ++ [(name, .object (unflatten es))] := by
  cases es with
  | nil => exact absurd rfl hes
  | cons e rest =>
    have hat : membersAt name acc = [] := by rw [membersAt, lookupEntry_eq_none hname]
    rw [List.map_cons, List.foldl_cons, insertPath_cons (hpaths e List.mem_cons_self), hat,
      insertEntry_of_not_mem _ hname]
    exact foldl_insertPath_last hname (fun e he => hpaths e (List.mem_cons_of_mem _ he)) _

/-! ## Paths lead back -/

variable {canon : Float → Float}

theorem path_ne_nil {e : List String × Json} (he : e ∈ leavesOfMembers canon members) : e.1 ≠ [] := by
  induction members with
  | nil => cases he
  | cons member rest ih =>
    obtain ⟨name, value⟩ := member
    rw [leavesOfMembers, List.mem_append] at he
    rcases he with he | he
    · split at he
      · cases he
      · obtain ⟨leaf, -, rfl⟩ := List.mem_map.mp he
        exact List.cons_ne_nil _ _
    · exact ih he

theorem entry_of_ne {value : Json} (h : value ≠ .object []) : entry name value = [(name, value)] := by
  unfold entry
  split
  · exact absurd rfl h
  · rfl

/-- What stands for itself makes one entry. -/
theorem foldl_leaf (hname : name ∉ acc.map Prod.fst) (hvalue : value ≠ .object []) :
    ([([], value)].map fun leaf => (name :: leaf.1, leaf.2)).foldl
        (fun members leaf => insertPath leaf.1 leaf.2 members) acc = acc ++ entry name value := by
  rw [entry_of_ne hvalue]
  exact insertEntry_of_not_mem value hname

mutual

/-- The paths into a member put its essence under its name. -/
theorem foldl_leaves : ∀ (value : Json) (name : String) (acc : List (String × Json)),
    value.WellNamed → name ∉ acc.map Prod.fst →
      ((value.leaves canon).map fun leaf => (name :: leaf.1, leaf.2)).foldl
          (fun members leaf => insertPath leaf.1 leaf.2 members) acc =
        acc ++ entry name (value.essence canon)
  | .object members, name, acc, hwell, hname => by
    rw [leaves]
    cases hkind : lookupEntry "type" members with
    | some kind => exact foldl_leaf hname (by simp [essence, hkind])
    | none =>
      have hmembers := foldl_leavesOfMembers members [] hwell.1 hwell.2 (fun _ _ => List.not_mem_nil)
      rw [List.nil_append, ← unflatten] at hmembers
      rw [essence, hkind, Option.toList_none, List.map_nil, List.nil_append, ← hmembers]
      by_cases hnone : leavesOfMembers canon members = []
      · simp [hnone, unflatten, entry]
      · have hpaths : ∀ e ∈ leavesOfMembers canon members, e.1 ≠ [] := fun e he => path_ne_nil he
        have hsome : Json.object (unflatten (leavesOfMembers canon members)) ≠ .object [] := fun heq =>
          unflatten_ne_nil hnone hpaths (Json.object.inj heq)
        rw [entry_of_ne hsome]
        exact foldl_insertPath_new hname hnone hpaths
  | .null, name, acc, _, hname | .bool _, name, acc, _, hname | .integer _, name, acc, _, hname
  | .number _, name, acc, _, hname | .string _, name, acc, _, hname | .array _, name, acc, _, hname =>
    foldl_leaf hname (by simp [essence])

theorem foldl_leavesOfMembers : ∀ (members acc : List (String × Json)), (members.map Prod.fst).Nodup →
    WellNamedMembers members → (∀ name ∈ members.map Prod.fst, name ∉ acc.map Prod.fst) →
      (leavesOfMembers canon members).foldl (fun members leaf => insertPath leaf.1 leaf.2 members) acc =
        acc ++ essenceOfMembers canon members
  | [], acc, _, _, _ => (List.append_nil acc).symm
  | (name, value) :: rest, acc, hnodup, hwell, hnew => by
    rw [List.map_cons, List.nodup_cons] at hnodup
    rw [leavesOfMembers, essenceOfMembers, List.foldl_append]
    by_cases hout : Import.leftOut name = true
    · rw [if_pos hout, if_pos hout]
      exact foldl_leavesOfMembers rest acc hnodup.2 hwell.2.2 fun other hother =>
        hnew other (List.mem_cons_of_mem _ hother)
    · rw [if_neg hout, if_neg hout, foldl_leaves value name acc hwell.2.1 (hnew name List.mem_cons_self)]
      rw [foldl_leavesOfMembers rest _ hnodup.2 hwell.2.2 fun other hother => ?_, List.append_assoc]
      -- the new entry has the name that was there before
      have hentry : ∀ e ∈ entry name (value.essence canon), e.1 = name := by
        intro e he
        unfold entry at he
        split at he
        · cases he
        · rw [List.mem_singleton.mp he]
      rw [List.map_append, List.mem_append]
      rintro (hin | hin)
      · exact hnew other (List.mem_cons_of_mem _ hother) hin
      · obtain ⟨e, he, rfl⟩ := List.mem_map.mp hin
        exact hnodup.1 (hentry e he ▸ hother)

end

/-- **Putting what stands at the paths of an object where they lead gives its essence back.** -/
theorem unflatten_leaves {members : List (String × Json)} (hwell : (Json.object members).WellNamed) :
    unflatten (leavesOfMembers canon members) = essenceOfMembers canon members := by
  have hmembers := @foldl_leavesOfMembers canon members [] hwell.1 hwell.2 fun _ _ => List.not_mem_nil
  rwa [List.nil_append] at hmembers

end Json

end ScriptCore

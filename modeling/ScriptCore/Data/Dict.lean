import Std.Data.TreeMap.Lemmas
import ScriptCore.Data.Entries

/-!
# Ordered dictionaries

Named entries in the order in which their names first came. Writing an existing name keeps its place,
a new one comes last, and removing a name keeps the order of the others. Scope cells, object fields
and rule tables are dictionaries.

A dictionary keeps its entries in a row and knows the place of every name, so that each operation takes
a time that hardly grows with the number of entries; a removed entry leaves a gap. What counts is the
list `entries`: on it the operations are those of a plain list of entries (`get?_eq`, `entries_insert`,
`entries_erase`).

Main statements: `get?_insert`, `keys_insert`, `get?_erase`, `keys_erase`.
-/
namespace ScriptCore

/-- Named entries with distinct names, in order. -/
structure Dict (α : Type) where
  /-- the place of each name -/
  places : Std.TreeMap String Nat
  /-- the entries, with a gap where one was removed -/
  row : Array (Option (String × α))
  agree : ∀ (name : String) (i : Nat), places[name]? = some i ↔
    ∃ value : α, row[i]? = some (some (name, value))

namespace Dict

variable {α β : Type}

def empty : Dict α := ⟨∅, #[], by simp⟩

instance : EmptyCollection (Dict α) := ⟨empty⟩
instance : Inhabited (Dict α) := ⟨empty⟩

def entries (d : Dict α) : List (String × α) := filled d.row.toList

def keys (d : Dict α) : List String := d.entries.map Prod.fst

def size (d : Dict α) : Nat := d.entries.length

def get? (d : Dict α) (name : String) : Option α :=
  match d.places[name]? with
  | some i => (d.row[i]?.join).map Prod.snd
  | none => none

def contains (d : Dict α) (name : String) : Bool := (d.get? name).isSome

/-- Write an entry: in place if the name exists, else as the last one. -/
def insert (d : Dict α) (name : String) (value : α) : Dict α :=
  match h : d.places[name]? with
  | some i =>
    { places := d.places
      row := d.row.setIfInBounds i (some (name, value))
      agree := by
        obtain ⟨old, hold⟩ := (d.agree name i).1 h
        obtain ⟨hi, hget⟩ := Array.getElem?_eq_some_iff.1 hold
        intro other j
        rw [d.agree other j, Array.getElem?_setIfInBounds]
        by_cases hij : i = j
        · subst hij
          simp [hi, hget]
        · simp [hij] }
  | none =>
    { places := d.places.insert name d.row.size
      row := d.row.push (some (name, value))
      agree := by
        intro other j
        rw [Std.TreeMap.getElem?_insert, Array.getElem?_push]
        by_cases hn : name = other
        · subst hn
          by_cases hj : j = d.row.size
          · simp [hj]
          · have hnone := mt (d.agree name j).2 (by simp [h])
            simp only [Std.compare_eq_iff_eq, if_true, Option.some.injEq, hj, if_false]
            exact ⟨fun e => absurd e.symm hj, fun e => absurd e hnone⟩
        · simp only [Std.compare_eq_iff_eq, hn, if_false]
          by_cases hj : j = d.row.size
          · subst hj
            rw [d.agree other d.row.size]
            simp [hn]
          · simp only [hj, if_false]
            exact d.agree other j }

def erase (d : Dict α) (name : String) : Dict α :=
  match h : d.places[name]? with
  | some i =>
    { places := d.places.erase name
      row := d.row.setIfInBounds i none
      agree := by
        obtain ⟨old, hold⟩ := (d.agree name i).1 h
        obtain ⟨hi, hget⟩ := Array.getElem?_eq_some_iff.1 hold
        intro other j
        rw [Std.TreeMap.getElem?_erase, Array.getElem?_setIfInBounds]
        by_cases hn : name = other
        · subst hn
          by_cases hij : i = j
          · simp [hij]
          · have hnone := mt (d.agree name j).2 (by simp [h, hij])
            simp only [Std.compare_eq_iff_eq, if_true, hij, if_false]
            exact ⟨fun e => (by cases e), fun e => absurd e hnone⟩
        · simp only [Std.compare_eq_iff_eq, hn, if_false]
          rw [d.agree other j]
          by_cases hij : i = j
          · subst hij
            simp [hi, hget, hn]
          · simp [hij] }
  | none => d

def insertAll (d : Dict α) (entries : List (String × α)) : Dict α :=
  entries.foldl (fun d e => d.insert e.1 e.2) d

/-- The dictionary of a list of entries; of equal names the last value stays, at the first place. -/
def ofList (entries : List (String × α)) : Dict α := insertAll ∅ entries

def filterKeys (d : Dict α) (keep : String → Bool) : Dict α :=
  ofList (d.entries.filter fun e => keep e.1)

/-! ## Dictionaries as lists -/

theorem mem_entries (d : Dict α) (e : String × α) :
    e ∈ d.entries ↔ ∃ i : Nat, d.row[i]? = some (some e) := by
  rw [entries, mem_filled, Array.mem_toList_iff, Array.mem_iff_getElem?]

theorem keys_nodup (d : Dict α) : (d.entries.map Prod.fst).Nodup := by
  rw [List.Nodup, List.pairwise_map, entries, filled, List.pairwise_filterMap,
    List.pairwise_iff_getElem]
  intro i j hi hj hij a ha b hb hab
  obtain ⟨name, value⟩ := a
  obtain ⟨name', value'⟩ := b
  simp only [id_eq] at ha hb
  simp only at hab
  subst hab
  have hi' := (d.agree name i).2 ⟨value, by
    rw [← Array.getElem?_toList, List.getElem?_eq_getElem hi, ha]⟩
  have hj' := (d.agree name j).2 ⟨value', by
    rw [← Array.getElem?_toList, List.getElem?_eq_getElem hj, hb]⟩
  rw [hi', Option.some.injEq] at hj'
  omega

theorem get?_eq (d : Dict α) (name : String) : d.get? name = lookupEntry name d.entries := by
  rw [get?]
  split
  next i hi =>
    obtain ⟨value, hvalue⟩ := (d.agree name i).1 hi
    rw [hvalue, lookupEntry_of_mem d.keys_nodup ((d.mem_entries _).2 ⟨i, hvalue⟩)]
    rfl
  next hnone =>
    refine (lookupEntry_eq_none fun hmem => ?_).symm
    obtain ⟨e, he, hname⟩ := List.mem_map.1 hmem
    obtain ⟨i, hi⟩ := (d.mem_entries e).1 he
    have := (d.agree name i).2 ⟨e.2, by rw [hi, ← hname]⟩
    rw [hnone] at this
    cases this

theorem entries_insert (d : Dict α) (name : String) (value : α) :
    (d.insert name value).entries = insertEntry name value d.entries := by
  rw [insert]
  split
  next i hi =>
    obtain ⟨old, hold⟩ := (d.agree name i).1 hi
    rw [← Array.getElem?_toList] at hold
    simp only [entries, Array.toList_setIfInBounds]
    exact filled_set_some d.keys_nodup hold
  next hnone =>
    have hnew : name ∉ d.entries.map Prod.fst := by
      rw [← lookupEntry_isSome, ← get?_eq, get?, hnone]
      simp
    rw [insertEntry_of_not_mem value hnew, entries, entries, Array.toList_push, filled_append]
    rfl

theorem entries_erase (d : Dict α) (name : String) :
    (d.erase name).entries = eraseEntry name d.entries := by
  rw [erase]
  split
  next i hi =>
    obtain ⟨old, hold⟩ := (d.agree name i).1 hi
    rw [← Array.getElem?_toList] at hold
    simp only [entries, Array.toList_setIfInBounds]
    exact filled_set_none d.keys_nodup hold
  next hnone =>
    have hnew : name ∉ d.entries.map Prod.fst := by
      rw [← lookupEntry_isSome, ← get?_eq, get?, hnone]
      simp
    exact (eraseEntry_of_not_mem hnew).symm

@[simp] theorem entries_empty : (∅ : Dict α).entries = [] := rfl

/-- Writing new names appends their entries. -/
theorem entries_insertAll (d : Dict α) (es : List (String × α))
    (h : ((d.entries ++ es).map Prod.fst).Nodup) : (d.insertAll es).entries = d.entries ++ es := by
  induction es generalizing d with
  | nil => simp [insertAll]
  | cons e rest ih =>
    have hnew : e.1 ∉ d.entries.map Prod.fst := by
      rw [List.map_append, List.nodup_append] at h
      intro hmem
      exact h.2.2 e.1 hmem e.1 (by simp) rfl
    have hentries : (d.insert e.1 e.2).entries = d.entries ++ [e] := by
      rw [entries_insert, insertEntry_of_not_mem e.2 hnew]
    have hrest := ih (d.insert e.1 e.2) (by rw [hentries]; simpa using h)
    rw [hentries, List.append_assoc] at hrest
    exact hrest

theorem entries_filterKeys (d : Dict α) (keep : String → Bool) :
    (d.filterKeys keep).entries = d.entries.filter fun e => keep e.1 := by
  have h := (∅ : Dict α).entries_insertAll (d.entries.filter fun e => keep e.1)
    (by
      rw [entries_empty, List.nil_append]
      exact d.keys_nodup.sublist (List.filter_sublist.map Prod.fst))
  exact h

/-! ## Laws -/

theorem contains_iff (d : Dict α) (name : String) : d.contains name = true ↔ name ∈ d.keys := by
  rw [contains, get?_eq]
  exact lookupEntry_isSome name d.entries

@[simp] theorem get?_empty (name : String) : (∅ : Dict α).get? name = none := by
  rw [get?_eq, entries_empty, lookupEntry]

@[simp] theorem keys_empty : (∅ : Dict α).keys = [] := rfl

/-- Writing shows under the written name and nowhere else. -/
theorem get?_insert (d : Dict α) (name other : String) (value : α) :
    (d.insert name value).get? other = if name = other then some value else d.get? other := by
  rw [get?_eq, get?_eq, entries_insert, lookupEntry_insertEntry]

theorem keys_insert (d : Dict α) (name : String) (value : α) :
    (d.insert name value).keys = if name ∈ d.keys then d.keys else d.keys ++ [name] := by
  rw [keys, entries_insert]
  exact map_fst_insertEntry name value d.entries

theorem keys_erase (d : Dict α) (name : String) : (d.erase name).keys = d.keys.erase name := by
  rw [keys, entries_erase]
  exact map_fst_eraseEntry name d.entries

/-- A removed name is gone, the others stay as they were. -/
theorem get?_erase (d : Dict α) (name other : String) :
    (d.erase name).get? other = if name = other then none else d.get? other := by
  rw [get?_eq, get?_eq, entries_erase, lookupEntry_eraseEntry name other d.keys_nodup]

theorem mem_of_get?_ofList {entries : List (String × α)} {name : String} {value : α}
    (h : (ofList entries).get? name = some value) : (name, value) ∈ entries := by
  have insertAll_mem : ∀ (es : List (String × α)) (d : Dict α),
      (d.insertAll es).get? name = some value → (name, value) ∈ es ∨ d.get? name = some value := by
    intro es
    induction es with
    | nil => exact fun d hd => Or.inr hd
    | cons e rest ih =>
      intro d hd
      cases ih (d.insert e.1 e.2) hd with
      | inl hmem => exact Or.inl (List.mem_cons_of_mem e hmem)
      | inr hget =>
        rw [get?_insert] at hget
        split at hget
        next hname =>
          cases hget
          exact Or.inl (by simp [← hname])
        · exact Or.inr hget
  cases insertAll_mem entries ∅ h with
  | inl hmem => exact hmem
  | inr hget => simp at hget

theorem get?_ofList {entries : List (String × α)} (h : (entries.map Prod.fst).Nodup)
    (name : String) : (ofList entries).get? name = lookupEntry name entries := by
  rw [get?_eq, ofList, entries_insertAll ∅ entries (by simpa using h), entries_empty,
    List.nil_append]

end Dict

end ScriptCore

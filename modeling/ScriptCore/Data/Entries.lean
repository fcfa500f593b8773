/-!
# Lists of named entries

Looking up, writing and dropping an entry of a list by its name. A name stands for its first entry; the
lists that matter hold every name once.
-/
namespace ScriptCore

/-- The value of the first entry with the given name. -/
def lookupEntry {α : Type} (name : String) : List (String × α) → Option α
  | [] => none
  | (key, value) :: rest => if key = name then some value else lookupEntry name rest

/-- Overwrite the entry with the given name, or append one. -/
def insertEntry {α : Type} (name : String) (value : α) : List (String × α) → List (String × α)
  | [] => [(name, value)]
  | (key, old) :: rest =>
    if key = name then (key, value) :: rest else (key, old) :: insertEntry name value rest

def eraseEntry {α : Type} (name : String) : List (String × α) → List (String × α)
  | [] => []
  | (key, value) :: rest => if key = name then rest else (key, value) :: eraseEntry name rest

theorem map_fst_insertEntry {α : Type} (name : String) (value : α) (es : List (String × α)) :
    (insertEntry name value es).map Prod.fst =
      if name ∈ es.map Prod.fst then es.map Prod.fst else es.map Prod.fst ++ [name] := by
  induction es with
  | nil => simp [insertEntry]
  | cons e rest ih =>
    obtain ⟨key, old⟩ := e
    by_cases h : key = name
    · simp [insertEntry, h]
    · have h' : ¬ name = key := fun e => h e.symm
      simp only [insertEntry, if_neg h, List.map_cons, ih, List.mem_cons, h', false_or]
      split <;> simp

theorem map_fst_eraseEntry {α : Type} (name : String) (es : List (String × α)) :
    (eraseEntry name es).map Prod.fst = (es.map Prod.fst).erase name := by
  induction es with
  | nil => rfl
  | cons e rest ih =>
    obtain ⟨key, old⟩ := e
    by_cases h : key = name
    · simp [eraseEntry, h]
    · simp [eraseEntry, h, ih]

theorem lookupEntry_isSome (name : String) (es : List (String × α)) :
    (lookupEntry name es).isSome = true ↔ name ∈ es.map Prod.fst := by
  induction es with
  | nil => simp [lookupEntry]
  | cons e rest ih =>
    obtain ⟨key, value⟩ := e
    by_cases h : key = name
    · simp [lookupEntry, h]
    · have h' : ¬ name = key := fun e => h e.symm
      simp [lookupEntry, h, h', ih]

theorem lookupEntry_insertEntry (name other : String) (value : α) (es : List (String × α)) :
    lookupEntry other (insertEntry name value es) =
      if name = other then some value else lookupEntry other es := by
  induction es with
  | nil => by_cases h : name = other <;> simp [insertEntry, lookupEntry, h]
  | cons e rest ih =>
    obtain ⟨key, old⟩ := e
    by_cases hk : key = name
    · subst hk
      by_cases h : key = other <;> simp [insertEntry, lookupEntry, h]
    · by_cases h : name = other
      · subst h
        simp [insertEntry, lookupEntry, hk, ih]
      · by_cases ho : key = other
        · subst ho
          simp [insertEntry, lookupEntry, hk, h]
        · simp [insertEntry, lookupEntry, hk, ho, h, ih]

theorem lookupEntry_eq_none {name : String} {es : List (String × α)}
    (h : name ∉ es.map Prod.fst) : lookupEntry name es = none := by
  rw [← Option.not_isSome_iff_eq_none, lookupEntry_isSome]
  exact h

theorem mem_of_lookupEntry {name : String} {value : α} {es : List (String × α)}
    (h : lookupEntry name es = some value) : (name, value) ∈ es := by
  induction es with
  | nil => cases h
  | cons e rest ih =>
    obtain ⟨key, first⟩ := e
    rw [lookupEntry] at h
    split at h
    next heq =>
      cases h
      rw [heq]
      exact List.mem_cons_self
    · exact List.mem_cons_of_mem _ (ih h)

theorem lookupEntry_of_mem {α : Type} {name : String} {value : α} {es : List (String × α)}
    (hd : (es.map Prod.fst).Nodup) (h : (name, value) ∈ es) : lookupEntry name es = some value := by
  induction es with
  | nil => cases h
  | cons e rest ih =>
    obtain ⟨key, old⟩ := e
    simp only [List.map_cons, List.nodup_cons] at hd
    by_cases hk : key = name
    · subst hk
      cases h with
      | head => simp [lookupEntry]
      | tail _ h => exact absurd (List.mem_map_of_mem h) hd.1
    · cases h with
      | head => exact absurd rfl hk
      | tail _ h => simpa [lookupEntry, hk] using ih hd.2 h

theorem insertEntry_of_not_mem {α : Type} {name : String} (value : α) {es : List (String × α)}
    (h : name ∉ es.map Prod.fst) : insertEntry name value es = es ++ [(name, value)] := by
  induction es with
  | nil => rfl
  | cons e rest ih =>
    obtain ⟨key, old⟩ := e
    simp only [List.map_cons, List.mem_cons, not_or] at h
    have hk : ¬ key = name := fun e => h.1 e.symm
    simp [insertEntry, hk, ih h.2]

theorem eraseEntry_of_not_mem {α : Type} {name : String} {es : List (String × α)}
    (h : name ∉ es.map Prod.fst) : eraseEntry name es = es := by
  induction es with
  | nil => rfl
  | cons e rest ih =>
    obtain ⟨key, old⟩ := e
    simp only [List.map_cons, List.mem_cons, not_or] at h
    have hk : ¬ key = name := fun e => h.1 e.symm
    simp [eraseEntry, hk, ih h.2]

/-- Dropping shows under the dropped name and nowhere else. -/
theorem lookupEntry_eraseEntry {α : Type} (name other : String) {es : List (String × α)}
    (hd : (es.map Prod.fst).Nodup) : lookupEntry other (eraseEntry name es) =
      if name = other then none else lookupEntry other es := by
  induction es with
  | nil => by_cases h : name = other <;> simp [eraseEntry, lookupEntry, h]
  | cons e rest ih =>
    obtain ⟨key, value⟩ := e
    simp only [List.map_cons, List.nodup_cons] at hd
    by_cases hk : key = name
    · subst hk
      by_cases h : key = other
      · subst h
        simp [eraseEntry, lookupEntry_eq_none hd.1]
      · simp [eraseEntry, lookupEntry, h]
    · by_cases h : name = other
      · subst h
        simpa [eraseEntry, lookupEntry, hk] using ih hd.2
      · by_cases ho : key = other
        · subst ho
          simp [eraseEntry, lookupEntry, hk, h]
        · simpa [eraseEntry, lookupEntry, hk, ho, h] using ih hd.2

/-! ## Rows with gaps -/

/-- What the filled places of a row hold, in order. -/
def filled {β : Type} (row : List (Option β)) : List β := row.filterMap id

theorem filled_nil {β : Type} : filled ([] : List (Option β)) = [] := rfl

theorem filled_none_cons {β : Type} (rest : List (Option β)) :
    filled (none :: rest) = filled rest := rfl

theorem filled_some_cons {β : Type} (b : β) (rest : List (Option β)) :
    filled (some b :: rest) = b :: filled rest := rfl

theorem filled_append {β : Type} (row rest : List (Option β)) :
    filled (row ++ rest) = filled row ++ filled rest := List.filterMap_append

theorem mem_filled {β : Type} {b : β} {row : List (Option β)} : b ∈ filled row ↔ some b ∈ row := by
  induction row with
  | nil => simp [filled_nil]
  | cons place rest ih => cases place <;> simp [filled_none_cons, filled_some_cons, ih]

theorem ne_of_filled {α : Type} {name key : String} {value other : α} {i : Nat}
    {rest : List (Option (String × α))} (hd : ((filled (some (key, other) :: rest)).map Prod.fst).Nodup)
    (h : rest[i]? = some (some (name, value))) : key ≠ name := by
  rw [filled_some_cons, List.map_cons, List.nodup_cons] at hd
  rintro rfl
  exact hd.1 (List.mem_map.2 ⟨(key, value), mem_filled.2 (List.mem_of_getElem? h), rfl⟩)

theorem filled_set_some {α : Type} {name : String} {old value : α} {i : Nat}
    {row : List (Option (String × α))} (hd : ((filled row).map Prod.fst).Nodup)
    (h : row[i]? = some (some (name, old))) :
    filled (row.set i (some (name, value))) = insertEntry name value (filled row) := by
  induction row generalizing i with
  | nil => simp at h
  | cons place rest ih =>
    cases i with
    | zero =>
      simp only [List.getElem?_cons_zero, Option.some.injEq] at h
      rw [h, List.set_cons_zero, filled_some_cons, filled_some_cons, insertEntry, if_pos rfl]
    | succ i =>
      rw [List.getElem?_cons_succ] at h
      cases place with
      | none =>
        rw [filled_none_cons] at hd
        rw [List.set_cons_succ, filled_none_cons, filled_none_cons, ih hd h]
      | some e =>
        have hk := ne_of_filled hd h
        rw [filled_some_cons, List.map_cons, List.nodup_cons] at hd
        rw [List.set_cons_succ, filled_some_cons, filled_some_cons, insertEntry, if_neg hk,
          ih hd.2 h]

theorem filled_set_none {α : Type} {name : String} {old : α} {i : Nat}
    {row : List (Option (String × α))} (hd : ((filled row).map Prod.fst).Nodup)
    (h : row[i]? = some (some (name, old))) :
    filled (row.set i none) = eraseEntry name (filled row) := by
  induction row generalizing i with
  | nil => simp at h
  | cons place rest ih =>
    cases i with
    | zero =>
      simp only [List.getElem?_cons_zero, Option.some.injEq] at h
      rw [h, List.set_cons_zero, filled_none_cons, filled_some_cons, eraseEntry, if_pos rfl]
    | succ i =>
      rw [List.getElem?_cons_succ] at h
      cases place with
      | none =>
        rw [filled_none_cons] at hd
        rw [List.set_cons_succ, filled_none_cons, filled_none_cons, ih hd h]
      | some e =>
        have hk := ne_of_filled hd h
        rw [filled_some_cons, List.map_cons, List.nodup_cons] at hd
        rw [List.set_cons_succ, filled_some_cons, filled_some_cons, eraseEntry, if_neg hk,
          ih hd.2 h]

end ScriptCore

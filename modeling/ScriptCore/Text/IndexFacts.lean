import Mathlib.Data.String.Basic
import ScriptCore.Text.Index

/-!
# Characters by index, as list elements

Stepping through a string finds the element of its list of characters.
-/
namespace ScriptCore.Text

/-- From the position after the characters `cs`, stepping counts in the characters that follow. -/
theorem charFrom_ofList (index : Nat) (cs rest : List Char) :
    charFrom (String.ofList (cs ++ rest)) index ⟨String.utf8Len cs⟩ = rest[index]? := by
  induction index generalizing cs rest with
  | zero =>
    cases rest with
    | nil => rw [charFrom, if_pos ((String.atEnd_of_valid cs []).mpr rfl), List.getElem?_nil]
    | cons c rest =>
      have hend := mt (String.atEnd_of_valid cs (c :: rest)).mp (List.cons_ne_nil c rest)
      rw [charFrom, if_neg hend, String.get_of_valid cs (c :: rest)]
      rfl
  | succ index ih =>
    cases rest with
    | nil => rw [charFrom, if_pos ((String.atEnd_of_valid cs []).mpr rfl), List.getElem?_nil]
    | cons c rest =>
      have hend := mt (String.atEnd_of_valid cs (c :: rest)).mp (List.cons_ne_nil c rest)
      have hstep := ih (cs ++ [c]) rest
      rw [List.append_assoc, List.singleton_append, String.utf8Len_append] at hstep
      rw [charFrom, if_neg hend, List.getElem?_cons_succ, ← hstep]
      simp only [String.next_of_valid cs c rest, String.utf8Len_cons, String.utf8Len_nil,
        Nat.zero_add]

/-- Every character takes a byte or more. -/
theorem length_le_utf8Len (cs : List Char) : cs.length ≤ String.utf8Len cs := by
  induction cs with
  | nil => simp
  | cons c rest ih =>
    have := c.utf8Size_pos
    simp only [List.length_cons, String.utf8Len_cons]
    omega

/-- Where all characters take one byte, so do the first ones. -/
theorem utf8Len_take {cs : List Char} (h : String.utf8Len cs = cs.length) (index : Nat) :
    String.utf8Len (cs.take index) = (cs.take index).length := by
  have hall : String.utf8Len (cs.take index) + String.utf8Len (cs.drop index) = cs.length := by
    rw [← String.utf8Len_append, List.take_append_drop, h]
  have hlength : (cs.take index).length + (cs.drop index).length = cs.length := by
    rw [← List.length_append, List.take_append_drop]
  have := length_le_utf8Len (cs.take index)
  have := length_le_utf8Len (cs.drop index)
  omega

/-- The character at an index is the element of the list of characters there. -/
theorem charAt?_eq (s : String) (index : Nat) : charAt? s index = s.toList[index]? := by
  rw [charAt?]
  split
  next hbytes =>
    split
    next hindex =>
      rw [← String.length_toList] at hindex
      have htake : String.utf8Len (s.toList.take index) = index := by
        rw [utf8Len_take (by rw [String.length_toList, ← hbytes]; simp), List.length_take, Nat.min_eq_left hindex.le]
      have hget := String.get_of_valid (s.toList.take index) (s.toList.drop index)
      rw [List.take_append_drop, String.ofList_toList, htake, List.drop_eq_getElem_cons hindex] at hget
      rw [hget, List.getElem?_eq_getElem hindex]
      rfl
    next hindex =>
      rw [← String.length_toList] at hindex
      exact (List.getElem?_eq_none (Nat.le_of_not_lt hindex)).symm
  next =>
    have h := charFrom_ofList index [] s.toList
    simpa using h

end ScriptCore.Text

import Mathlib.Data.List.Basic
import Mathlib.Data.List.TakeWhile
import Std.Data.String.ToNat
import ScriptCore.Json.Basic

/-!
# Paths into values

A path leads from a value down to one that it holds, by names of members and indices of elements. Written down,
each access follows the one before it, and where the names have no dots and brackets in them the text tells the
path (`Json.spell_injective`).
-/
namespace ScriptCore.Json

/-- An access to what a value holds. -/
inductive Access where
  | member (name : String)
  | element (index : Nat)
  deriving DecidableEq, Repr

/-- What stands where accesses lead. -/
def at? : Json → List Access → Option Json
  | j, [] => some j
  | .object members, .member name :: rest => (lookupEntry name members).bind fun value => value.at? rest
  | .array items, .element index :: rest => items[index]?.bind fun item => item.at? rest
  | _, _ :: _ => none

/-- How an access is written. -/
def Access.spell : Access → String
  | .member name => "." ++ name
  | .element index => "[" ++ toString index ++ "]"

/-- How accesses in a row are written. -/
def spell : List Access → String
  | [] => ""
  | access :: rest => access.spell ++ spell rest

theorem spell_append (first rest : List Access) : spell (first ++ rest) = spell first ++ spell rest := by
  induction first with
  | nil => rw [List.nil_append, spell, String.empty_append]
  | cons access first ih => rw [List.cons_append, spell, spell, ih, String.append_assoc]

/-! ## Reading a path -/

/-- Whether a character stands between names and numerals only. -/
def isPunctuation (c : Char) : Bool := c == '.' || c == '[' || c == ']'

/-- A name that a path can be told from. -/
def IsPlainName (name : String) : Prop := ∀ c ∈ name.toList, isPunctuation c = false

instance (name : String) : Decidable (IsPlainName name) :=
  inferInstanceAs (Decidable (∀ c ∈ name.toList, isPunctuation c = false))

def Access.IsPlain : Access → Prop
  | .member name => IsPlainName name
  | .element _ => True

/-- Accesses are written after one another, each with a punctuation mark at its start. -/
theorem head_spell (path : List Access) : ∀ c ∈ (spell path).toList.head?, isPunctuation c = true := by
  cases path with
  | nil => simp [spell]
  | cons access rest => cases access <;> simp [spell, Access.spell, isPunctuation]

/-- Texts without punctuation end where the punctuation begins. -/
theorem append_inj_of_punctuation {cs cs' rest rest' : List Char} (hcs : ∀ c ∈ cs, isPunctuation c = false)
    (hcs' : ∀ c ∈ cs', isPunctuation c = false) (hrest : ∀ c ∈ rest.head?, isPunctuation c = true)
    (hrest' : ∀ c ∈ rest'.head?, isPunctuation c = true) (h : cs ++ rest = cs' ++ rest') :
    cs = cs' ∧ rest = rest' := by
  have hfirst {cs rest : List Char} (hcs : ∀ c ∈ cs, isPunctuation c = false)
      (hrest : ∀ c ∈ rest.head?, isPunctuation c = true) :
      (cs ++ rest).takeWhile (fun c => !isPunctuation c) = cs := by
    rw [List.takeWhile_append_of_pos (by simpa using hcs)]
    cases rest with
    | nil => simp
    | cons c rest => simp [hrest c rfl]
  have heq : cs = cs' := by rw [← hfirst hcs hrest, h, hfirst hcs' hrest']
  subst heq
  exact ⟨rfl, List.append_cancel_left h⟩

theorem numeral_plain (index : Nat) : ∀ c ∈ (toString index).toList, isPunctuation c = false := by
  intro c hc
  rw [Nat.toString_eq_ofList_toDigits, String.toList_ofList] at hc
  have hdigit : c.isDigit = true := Nat.isDigit_of_mem_toDigits (by decide) (by decide) hc
  by_contra hmark
  simp only [isPunctuation, Bool.not_eq_false, Bool.or_eq_true, beq_iff_eq] at hmark
  obtain (rfl | rfl) | rfl := hmark
  all_goals exact absurd hdigit (by decide)

/-- The first access of a path and the text of the others are told from its text. -/
theorem spell_cons_injective {access access' : Access} {rest rest' : List Access} (hplain : access.IsPlain)
    (hplain' : access'.IsPlain) (h : spell (access :: rest) = spell (access' :: rest')) :
    access = access' ∧ spell rest = spell rest' := by
  have hchars := congrArg String.toList h
  cases access with
  | member name =>
    cases access' with
    | member name' =>
      have hnames : name.toList ++ (spell rest).toList = name'.toList ++ (spell rest').toList := by
        simpa [spell, Access.spell] using hchars
      obtain ⟨hname, hrest⟩ := append_inj_of_punctuation hplain hplain' (head_spell rest) (head_spell rest') hnames
      exact ⟨congrArg Access.member (String.toList_inj.mp hname), String.toList_inj.mp hrest⟩
    | element index => simp [spell, Access.spell] at hchars
  | element index =>
    cases access' with
    | member name => simp [spell, Access.spell] at hchars
    | element index' =>
      have hnumerals : (toString index).toList ++ ']' :: (spell rest).toList =
          (toString index').toList ++ ']' :: (spell rest').toList := by
        simpa [spell, Access.spell] using hchars
      have hbracket (rest : List Char) : ∀ c ∈ (']' :: rest).head?, isPunctuation c = true := by
        simp [isPunctuation]
      obtain ⟨hindex, hrest⟩ := append_inj_of_punctuation (numeral_plain index) (numeral_plain index')
        (hbracket _) (hbracket _) hnumerals
      exact ⟨congrArg Access.element (Nat.repr_injective (String.toList_inj.mp hindex)),
        String.toList_inj.mp (List.cons.inj hrest).2⟩

/-- **A text tells one path**, if the names on it are plain. -/
theorem spell_injective {path path' : List Access} (hpath : ∀ access ∈ path, access.IsPlain)
    (hpath' : ∀ access ∈ path', access.IsPlain) (h : spell path = spell path') : path = path' := by
  induction path generalizing path' with
  | nil =>
    cases path' with
    | nil => rfl
    | cons access rest => cases access <;> simp [spell, Access.spell] at h
  | cons access rest ih =>
    cases path' with
    | nil => cases access <;> simp [spell, Access.spell] at h
    | cons access' rest' =>
      obtain ⟨hplain, hrest⟩ := List.forall_mem_cons.mp hpath
      obtain ⟨hplain', hrest'⟩ := List.forall_mem_cons.mp hpath'
      obtain ⟨rfl, htext⟩ := spell_cons_injective hplain hplain' h
      rw [ih hrest hrest' htext]

/-! ## Values that paths lead through -/

/-- Members of an object have names of their own, which paths can be told from, as far as paths lead. -/
def Addressable (j : Json) : Prop :=
  ∀ path members, j.at? path = some (.object members) →
    (members.map Prod.fst).Nodup ∧ ∀ member ∈ members, IsPlainName member.1

variable {members : List (String × Json)} {items : List Json} {name : String} {value : Json} {index : Nat}

theorem at?_member (hnames : (members.map Prod.fst).Nodup) (h : (name, value) ∈ members) (path : List Access) :
    (Json.object members).at? (.member name :: path) = value.at? path := by
  rw [at?, lookupEntry_of_mem hnames h, Option.bind_some]

theorem at?_element (h : items[index]? = some value) (path : List Access) :
    (Json.array items).at? (.element index :: path) = value.at? path := by
  rw [at?, h, Option.bind_some]

theorem Addressable.names (h : (Json.object members).Addressable) : (members.map Prod.fst).Nodup :=
  (h [] members rfl).1

theorem Addressable.plain (h : (Json.object members).Addressable) (hmem : (name, value) ∈ members) :
    IsPlainName name := (h [] members rfl).2 _ hmem

theorem Addressable.member (h : (Json.object members).Addressable) (hmem : (name, value) ∈ members) :
    value.Addressable := fun path inner hinner =>
  h (.member name :: path) inner (by rw [at?_member h.names hmem, hinner])

theorem Addressable.element (h : (Json.array items).Addressable) (hitem : items[index]? = some value) :
    value.Addressable := fun path inner hinner => h (.element index :: path) inner (by rw [at?_element hitem, hinner])

end ScriptCore.Json

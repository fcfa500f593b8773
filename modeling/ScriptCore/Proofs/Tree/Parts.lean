import ScriptCore.Proofs.Tree.Footprint
import ScriptCore.Proofs.Tree.Grammar
import ScriptCore.Proofs.Tree.Pattern

/-!
# The kinds of what a node asks for

In a program the rule of an expression asks for the values of expressions, and so does the binding of a
pattern; what it binds in its turn are patterns, and their names are names of the pattern.
-/
namespace ScriptCore.Tree

variable {t : Tree} {k : NodeKind} {n m p q : NodeId} {slots : List Slot} {declares : Bool}

/-- What stands in fields that hold one child each. -/
theorem Holds.inFields {P : NodeKind → NodeId → Prop} (h : t.Holds n slots P) {keys : List String}
    (hkeys : ∀ key ∈ keys, ⟨.one, key, k⟩ ∈ slots ∨ ⟨.optional, key, k⟩ ∈ slots)
    (hm : m ∈ t.inFields n keys) : P k m := by
  obtain ⟨key, hkey, hchild⟩ := mem_inFields.mp hm
  obtain hone | hoptional := hkeys key hkey
  · exact h.required hone hchild
  · exact h.optional hoptional hchild

/-! ## Expressions -/

theorem Derives.placeParts (h : t.Derives .expression n) (hm : m ∈ t.placeParts n) :
    t.Derives .expression m := by
  unfold Tree.placeParts at hm
  split at hm
  next htag =>
    have hholds : t.Holds n Grammar.memberSlots (t.Has n) :=
      h.holds (by simp only [Grammar.production, Grammar.expressionSlots, eq_of_beq htag])
    exact (hholds.inFields (k := .expression) (by simp [Grammar.memberSlots]) hm).derives
  · cases hm

theorem Derives.itemParts (h : t.Derives .element n) (hm : m ∈ t.itemParts n) : t.Derives .expression m := by
  unfold Tree.itemParts at hm
  split at hm
  next htag =>
    have hholds : t.Holds n [⟨.one, "argument", .expression⟩] (t.Has n) :=
      h.holds (by simp only [Grammar.production, htag, if_true])
    exact (hholds.inFields (k := .expression) (by simp) hm).derives
  next htag => exact List.mem_singleton.mp hm ▸ h.expression_of_element htag

theorem Derives.propertyParts (h : t.Derives .property n) (hm : m ∈ t.propertyParts n) :
    t.Derives .expression m := by
  obtain ⟨slots, hslots⟩ := h.exists_production
  have hholds := h.holds hslots
  simp only [Grammar.production] at hslots
  unfold Tree.propertyParts at hm
  split at hm
  next htag =>
    rw [if_pos htag] at hslots
    cases hslots
    exact (hholds.inFields (k := .expression) (by simp) hm).derives
  next htag =>
    rw [if_neg htag] at hslots
    split at hslots
    · cases hslots
      exact (hholds.inFields (k := .expression) (by simp) hm).derives
    · cases hslots

/-- What an assignment holds: `=` takes a pattern as well, another operator a single target. -/
theorem Derives.assignment (h : t.Derives .expression n) (htag : t.tag n = "AssignmentExpression") :
    ∃ k, (k = .assignable ∨ k = .target) ∧
      t.Holds n [⟨.one, "left", k⟩, ⟨.one, "right", .expression⟩] (t.Has n) := by
  obtain ⟨slots, hslots⟩ := h.exists_production
  have hholds := h.holds hslots
  simp only [Grammar.production, Grammar.expressionSlots, htag] at hslots
  split at hslots
  · split at hslots
    · cases hslots
      exact ⟨.assignable, Or.inl rfl, hholds⟩
    · split at hslots
      · cases hslots
        exact ⟨.target, Or.inr rfl, hholds⟩
      · cases hslots
  · cases hslots

/-- The parts of a place that is assigned to. -/
theorem Derives.assignedParts (hk : k = .assignable ∨ k = .target) (h : t.Derives k n)
    (hm : m ∈ t.placeParts n) : t.Derives .expression m := by
  have htarget : t.Derives .target n := by
    obtain rfl | rfl := hk
    · refine h.target_of_assignable fun hpattern => ?_
      unfold Tree.placeParts at hm
      split at hm
      next htag => simp [is, eq_of_beq htag] at hpattern
      · cases hm
    · exact h
  exact htarget.expression_of_target.2.placeParts hm

/-- What asks for something is supported, and its children are visited. -/
theorem supported_of_evaluated (h : m ∈ t.evaluated n) :
    (RuleTable.default.get? (t.tag n)).isNone = false ∧ Tag.isClosed (t.tag n) = false := by
  rw [RuleTable.default, Dict.get?_ofList (by decide)]
  unfold evaluated at h
  split at h
  case h_28 => cases h
  all_goals
    rename_i htag
    rw [htag]
    exact ⟨rfl, rfl⟩

/-- **The rule of an expression asks for expressions.** -/
theorem Derives.evaluated (h : t.Derives .expression n) (hm : m ∈ t.evaluated n) :
    t.Derives .expression m := by
  obtain ⟨hsupported, -⟩ := supported_of_evaluated hm
  obtain ⟨slots, hslots⟩ := h.exists_production
  have hholds := h.holds hslots
  have hfields {keys : List String} (hkeys : ∀ key ∈ keys, ⟨.one, key, .expression⟩ ∈ slots)
      (hm : m ∈ t.inFields n keys) : t.Derives .expression m :=
    (hholds.inFields (fun key hkey => Or.inl (hkeys key hkey)) hm).derives
  have hparts {key : String} {parts : NodeId → List NodeId} (hslot : ⟨.one, key, .expression⟩ ∈ slots)
      (hin : ∀ {child}, t.Derives .expression child → m ∈ parts child → t.Derives .expression m)
      (hm : m ∈ (t.inFields n [key]).flatMap parts) : t.Derives .expression m := by
    obtain ⟨child, hchild, hin'⟩ := List.mem_flatMap.mp hm
    refine hin (hholds.inFields (k := .expression) ?_ hchild).derives hin'
    simpa using Or.inl hslot
  have hmany {key : String} {k : NodeKind} {parts : NodeId → List NodeId} (hslot : ⟨.many, key, k⟩ ∈ slots)
      (hin : ∀ {child}, t.Derives k child → m ∈ parts child → t.Derives .expression m)
      (hm : m ∈ (t.present n key).flatMap parts) : t.Derives .expression m := by
    obtain ⟨child, hchild, hin'⟩ := List.mem_flatMap.mp hm
    exact hin (hholds.present hslot hchild).derives hin'
  have hoperand {child : NodeId} (hchild : t.Derives .expression child)
      (hm : m ∈ child :: t.placeParts child) : t.Derives .expression m := by
    obtain rfl | hm := List.mem_cons.mp hm
    · exact hchild
    · exact hchild.placeParts hm
  simp only [Grammar.production, Grammar.expressionSlots] at hslots
  split at hslots
  case h_19 =>
    rw [Grammar.unsupportedSlots, hsupported] at hslots
    cases hslots
  all_goals
    rename_i htag
    simp only [Tree.evaluated, htag] at hm
  · cases hm
  · cases hm
  · cases hm
  · cases hslots
    exact (hholds.present (k := .expression) (by simp) hm).derives
  · cases hslots
    exact hmany (k := .element) (by simp) (fun h hm => h.itemParts hm) hm
  · cases hslots
    exact hmany (k := .property) (by simp) (fun h hm => h.propertyParts hm) hm
  · cases hm
  · cases hm
  · exact h.placeParts hm
  · cases hslots
    exact hfields (by simp) hm
  · cases hslots
    obtain hm | hm := List.mem_append.mp hm
    · exact hparts (by simp) hoperand hm
    · exact hmany (k := .element) (by simp) (fun h hm => h.itemParts hm) hm
  · split at hslots
    · cases hslots
      exact hparts (by simp) hoperand hm
    · cases hslots
  · split at hslots
    · cases hslots
      obtain ⟨argument, hargument, hm⟩ := List.mem_flatMap.mp hm
      exact (hholds.inFields (k := .target) (by simp) hargument).derives.assignedParts (Or.inr rfl) hm
    · cases hslots
  · split at hslots
    · cases hslots
      exact hfields (by simp [Grammar.operandSlots]) hm
    · cases hslots
  · split at hslots
    · cases hslots
      exact hfields (by simp [Grammar.operandSlots]) hm
    · cases hslots
  · obtain ⟨k, hk, hheld⟩ := h.assignment htag
    obtain hm | hm := List.mem_append.mp hm
    · obtain ⟨left, hleft, hm⟩ := List.mem_flatMap.mp hm
      exact (hheld.inFields (k := k) (by simp) hleft).derives.assignedParts hk hm
    · exact (hheld.inFields (k := .expression) (by simp) hm).derives
  · cases hslots
    exact hfields (by simp) hm
  · cases hslots
    exact (hholds.present (k := .expression) (by simp) hm).derives

/-! ## Patterns -/

theorem Derives.member (h : t.Derives (.patternMember declares) n) :
    (t.is n "RestElement" = true ∧ t.Holds n [⟨.one, "argument", .pattern declares⟩] (t.Has n)) ∨
      ¬ t.is n "RestElement" = true ∧ t.tag n = "Property" ∧
        t.Holds n [⟨.one, "key", .expression⟩, ⟨.one, "value", .pattern declares⟩] (t.Has n) := by
  by_cases hrest : t.is n "RestElement" = true
  · exact Or.inl ⟨hrest, h.holds (by simp only [Grammar.production, hrest, if_true])⟩
  · have htag := h.tag_of_member hrest
    exact Or.inr ⟨hrest, htag, h.holds (by simp [Grammar.production, is, htag])⟩

/-- The binding of a pattern asks for expressions. -/
theorem Derives.patternValues (h : t.Derives (.pattern declares) p) (hm : m ∈ t.patternValues p) :
    t.Derives .expression m := by
  obtain ⟨slots, hslots⟩ := h.exists_production
  have hholds := h.holds hslots
  simp only [Grammar.production, Grammar.patternSlots] at hslots
  split at hslots
  all_goals try rename_i htag
  · simp [Tree.patternValues, htag] at hm
  · have hexpression : t.Derives .expression p := by
      split at hslots
      · cases hslots
      next hassigns =>
        refine h.of_production ?_
        simp [Grammar.production, Grammar.expressionSlots, Grammar.patternSlots, htag, hassigns]
    simp only [Tree.patternValues, htag] at hm
    exact hexpression.placeParts hm
  · cases hslots
    simp only [Tree.patternValues, htag] at hm
    exact (hholds.inFields (k := .expression) (by simp) hm).derives
  · cases hslots
    simp only [Tree.patternValues, htag] at hm
    obtain ⟨member, hmember, hm⟩ := List.mem_flatMap.mp hm
    obtain ⟨hrest, -⟩ | ⟨hrest, -, hmembers⟩ := (hholds.present List.mem_cons_self hmember).derives.member
    · rw [memberKeys, if_pos hrest] at hm
      cases hm
    · rw [memberKeys, if_neg hrest] at hm
      exact (hmembers.inFields (k := .expression) (by simp) hm).derives
  · simp [Tree.patternValues, htag] at hm
  · cases hslots

/-- **The patterns in a pattern are patterns**, and what they bind, the pattern binds. -/
theorem Derives.subpatterns (ht : t.Proper) (h : t.Derives (.pattern declares) p) (hq : q ∈ t.subpatterns p) :
    t.Derives (.pattern declares) q ∧ t.bindingNames q ⊆ t.bindingNames p := by
  obtain ⟨slots, hslots⟩ := h.exists_production
  have hholds := h.holds hslots
  simp only [Grammar.production, Grammar.patternSlots] at hslots
  rw [ht.bindingNames_eq p]
  split at hslots
  all_goals try rename_i htag
  · simp [Tree.subpatterns, htag] at hq
  · simp [Tree.subpatterns, htag] at hq
  · cases hslots
    simp only [Tree.subpatterns, htag] at hq
    have hleft : t.child? p "left" = some q := by simpa [mem_inFields] using hq
    refine ⟨(hholds.inFields (by simp) hq).derives, ?_⟩
    simp only [htag, hleft]
    exact List.Subset.refl _
  · cases hslots
    simp only [Tree.subpatterns, htag] at hq ⊢
    obtain ⟨member, hmember, hq⟩ := List.mem_flatMap.mp hq
    have hnames {names : List String} (hin : names ⊆ t.memberNames member) :
        names ⊆ (t.present p "properties").flatMap t.memberNames :=
      fun name hname => List.mem_flatMap.mpr ⟨member, hmember, hin hname⟩
    obtain ⟨hrest, hargument⟩ | ⟨hrest, hproperty, hvalue⟩ :=
      (hholds.present List.mem_cons_self hmember).derives.member
    · rw [memberPatterns, if_pos hrest] at hq
      refine ⟨(hargument.inFields (by simp) hq).derives, hnames ?_⟩
      have hchild : t.child? member "argument" = some q := by simpa [mem_inFields] using hq
      rw [← ht.bindingNames_rest (eq_of_beq hrest) hchild]
      simp [memberNames, is, eq_of_beq hrest]
    · rw [memberPatterns, if_neg hrest] at hq
      refine ⟨(hvalue.inFields (k := .pattern declares) (by simp) hq).derives, hnames ?_⟩
      have hchild : t.child? member "value" = some q := by simpa [mem_inFields] using hq
      simp [memberNames, is, hproperty, hchild]
  · cases hslots
    simp only [Tree.subpatterns, htag] at hq ⊢
    obtain ⟨element, helement, hq⟩ := List.mem_flatMap.mp hq
    have hderives := (hholds.present List.mem_cons_self helement).derives
    have hnames {names : List String} (hin : names ⊆ t.bindingNames element) :
        names ⊆ (t.present p "elements").flatMap t.bindingNames :=
      fun name hname => List.mem_flatMap.mpr ⟨element, helement, hin hname⟩
    rw [elementPatterns] at hq
    split at hq
    next hrest =>
      have hargument : t.Holds element [⟨.one, "argument", .pattern declares⟩] (t.Has element) :=
        hderives.holds (by simp only [Grammar.production, hrest, if_true])
      refine ⟨(hargument.inFields (by simp) hq).derives, hnames ?_⟩
      have hchild : t.child? element "argument" = some q := by simpa [mem_inFields] using hq
      rw [ht.bindingNames_rest (eq_of_beq hrest) hchild]
      exact List.Subset.refl _
    next hrest =>
      obtain rfl := List.mem_singleton.mp hq
      exact ⟨hderives.pattern_of_element hrest, hnames (List.Subset.refl _)⟩
  · cases hslots

/-- An identifier binds its name. -/
theorem Proper.mem_bindingNames (ht : t.Proper) {name : String} (h : t.identifierName? p = some name) :
    name ∈ t.bindingNames p := by
  rw [ht.bindingNames_eq p]
  simp [tag_of_identifierName? h, h]

end ScriptCore.Tree

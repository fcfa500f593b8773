import ScriptCore.Proofs.Eval.Orderly
import ScriptCore.Proofs.Hoist.Reserved
import ScriptCore.Proofs.Tree.Parts

/-!
# What an activation evaluates

Expressions, the statements that its resolution visited, and a program: what the rule of such a node asks
for is of these kinds again (`Activation.Evaluates.evaluated`), and so the blocks that it opens and the
declarations that it carries out were visited. An expression opens no block and declares nothing, so nothing
more is asked of it.
-/
namespace ScriptCore

namespace Tag

/-- The kinds of nodes whose rules open blocks or declare. -/
def opening : List String :=
  ["Program", "BlockStatement", "VariableDeclaration", "ForStatement", "ForInStatement",
    "ForOfStatement", "SwitchStatement", "TryStatement"]

theorem opening_supported {tag : String} (h : tag ∈ opening) :
    (RuleTable.default.get? tag).isNone = false := by
  rw [RuleTable.default, Dict.get?_ofList (by decide)]
  simp only [opening, List.mem_cons, List.not_mem_nil, or_false] at h
  rcases h with rfl | rfl | rfl | rfl | rfl | rfl | rfl | rfl <;> rfl

end Tag

namespace Tree

variable {t : Tree} {n m d block : NodeId}

/-- Expressions open no blocks and declare nothing. -/
theorem Derives.tag_of_expression (h : t.Derives .expression n) : t.tag n ∉ Tag.opening := by
  intro hmem
  obtain ⟨slots, hslots⟩ := h.exists_production
  simp only [Grammar.production, Grammar.expressionSlots] at hslots
  split at hslots
  case h_19 =>
    rw [Grammar.unsupportedSlots, Tag.opening_supported hmem] at hslots
    cases hslots
  all_goals
    rename_i htag
    rw [htag] at hmem
    simp [Tag.opening] at hmem

theorem opening_of_openedBlocks (h : block ∈ t.openedBlocks n) : t.tag n ∈ Tag.opening ∧ t.tag n ≠ "Program" := by
  unfold openedBlocks at h
  split at h
  case h_5 => cases h
  all_goals
    rename_i htag
    simp [htag, Tag.opening]

theorem opening_of_declarators (h : d ∈ t.declarators n) : t.tag n ∈ Tag.opening ∧ t.tag n ≠ "Program" := by
  unfold declarators at h
  split at h
  case h_4 => cases h
  all_goals
    rename_i htag
    simp [htag, Tag.opening]

theorem opening_of_listed (h : m ∈ t.listed n) : t.tag n ∈ Tag.opening := by
  unfold listed at h
  split at h
  case h_5 => cases h
  all_goals
    rename_i htag
    simp [htag, Tag.opening]

end Tree

/-- What is evaluated where it stands: expressions, and statements of any form. -/
def NodeKind.isEvaluated : NodeKind → Bool
  | .expression | .statement _ | .block _ | .forInit => true
  | _ => false

namespace Activation

/-- A node of a kind that the resolution visited. -/
structure Sits (a : Activation) (k : NodeKind) (n : NodeId) : Prop where
  visited : a.tree.Walked a.links.root n
  derives : a.tree.Derives k n

/-- What the activation evaluates: expressions, its own statements, and a program. -/
def Evaluates (a : Activation) (n : NodeId) : Prop :=
  a.tree.Derives .expression n ∨ (∃ j, a.Sits (.statement j) n) ∨ a.Sits .program n

variable {a : Activation} {k : NodeKind} {n m d p block : NodeId} {j : Jumps} {slots : List Slot}

/-- All that a node holds is visited with it, unless the resolution leaves its children alone. -/
theorem Sits.holds (h : a.Sits k n) (hopen : Tag.isClosed (a.tree.tag n) = false)
    (hslots : Grammar.production a.tree n k = some slots) : a.tree.Holds n slots a.Sits := by
  apply (h.derives.holds hslots).mono
  intro k child hchild
  exact ⟨h.visited.tail ⟨hopen, hchild.visited⟩, hchild.derives⟩

theorem Sits.statement_of_block (h : a.Sits (.block j) n) : a.Sits (.statement j) n :=
  ⟨h.visited, h.derives.statement_of_block⟩

/-! ## Statements -/

theorem Sits.block_holds (h : a.Sits (.statement j) n) (htag : a.tree.tag n = "BlockStatement") :
    a.tree.Holds n [⟨.many, "body", .statement j⟩] a.Sits :=
  h.holds (by rw [htag]; rfl) (by simp only [Grammar.production, Grammar.statementSlots, htag])

theorem Sits.declaration_holds (h : a.Sits (.statement j) n) (htag : a.tree.tag n = "VariableDeclaration") :
    a.tree.Holds n [⟨.many, "declarations", .declarator⟩] a.Sits :=
  h.holds (by rw [htag]; rfl) (by simp only [Grammar.production, Grammar.statementSlots, htag])

theorem Sits.declarator_holds (h : a.Sits .declarator n) :
    a.tree.Holds n [⟨.one, "id", .pattern true⟩, ⟨.optional, "init", .expression⟩] a.Sits := by
  have htag := h.derives.tag_eq rfl
  exact h.holds (by rw [htag]; rfl) (by simp only [Grammar.production, Tree.is, htag, beq_self_eq_true, if_true])

theorem Sits.iteration_holds (h : a.Sits (.statement j) n)
    (htag : a.tree.tag n = "ForInStatement" ∨ a.tree.tag n = "ForOfStatement") :
    a.tree.Holds n [⟨.one, "left", .forLeft⟩, ⟨.one, "right", .expression⟩,
      ⟨.one, "body", .statement j.inLoop⟩] a.Sits := by
  obtain htag | htag := htag
  · exact h.holds (by rw [htag]; rfl) (by simp only [Grammar.production, Grammar.statementSlots, htag])
  · exact h.holds (by rw [htag]; rfl) (by simp only [Grammar.production, Grammar.statementSlots, htag])

theorem Sits.switch_holds (h : a.Sits (.statement j) n) (htag : a.tree.tag n = "SwitchStatement") :
    a.tree.Holds n [⟨.one, "discriminant", .expression⟩, ⟨.many, "cases", .switchCase j.inSwitch⟩] a.Sits :=
  h.holds (by rw [htag]; rfl) (by simp only [Grammar.production, Grammar.statementSlots, htag])

theorem Sits.case_holds (h : a.Sits (.switchCase j) n) :
    a.tree.Holds n [⟨.optional, "test", .expression⟩, ⟨.many, "consequent", .statement j⟩] a.Sits := by
  have htag := h.derives.tag_eq rfl
  exact h.holds (by rw [htag]; rfl) (by simp only [Grammar.production, Tree.is, htag, beq_self_eq_true, if_true])

theorem Sits.try_holds (h : a.Sits (.statement j) n) (htag : a.tree.tag n = "TryStatement") :
    a.tree.Holds n [⟨.one, "block", .block j⟩, ⟨.optional, "handler", .catchClause j⟩,
      ⟨.optional, "finalizer", .block j⟩] a.Sits :=
  h.holds (by rw [htag]; rfl) (by simp only [Grammar.production, Grammar.statementSlots, htag])

theorem Sits.clause_holds (h : a.Sits (.catchClause j) n) :
    a.tree.Holds n [⟨.optional, "param", .pattern true⟩, ⟨.one, "body", .block j⟩] a.Sits := by
  have htag := h.derives.tag_eq rfl
  exact h.holds (by rw [htag]; rfl) (by simp only [Grammar.production, Tree.is, htag, beq_self_eq_true, if_true])

theorem Sits.handlerBody (h : a.Sits (.statement j) n) (htag : a.tree.tag n = "TryStatement") {body : NodeId}
    (hbody : a.tree.handlerBody? n = some body) : a.Sits (.block j) body := by
  obtain ⟨handler, hhandler, hchild⟩ := Option.bind_eq_some_iff.mp hbody
  have hclause : a.Sits (.catchClause j) handler := (h.try_holds htag).optional (by simp) hhandler
  exact hclause.clause_holds.required (by simp) hchild

/-- The statements that are run as a list. -/
theorem Sits.listed (h : a.Sits (.statement j) n) (hm : m ∈ a.tree.listed n) :
    ∃ inner, a.Sits (.statement inner) m := by
  unfold Tree.listed at hm
  split at hm
  next htag =>
    -- a program is no statement
    obtain ⟨slots, hslots⟩ := h.derives.exists_production
    simp only [Grammar.production, Grammar.statementSlots, htag] at hslots
    rw [Grammar.unsupportedSlots, Tag.opening_supported (by simp [htag, Tag.opening])] at hslots
    cases hslots
  next htag => exact ⟨j, (h.block_holds htag).present List.mem_cons_self hm⟩
  next htag =>
    obtain ⟨case, hcase, hm⟩ := List.mem_flatMap.mp hm
    have hsits : a.Sits (.switchCase j.inSwitch) case := (h.switch_holds htag).present (by simp) hcase
    exact ⟨j.inSwitch, hsits.case_holds.present (by simp) hm⟩
  next htag =>
    obtain ⟨body, hbody, hm⟩ := List.mem_flatMap.mp hm
    have hblock := h.handlerBody htag (Option.mem_toList.mp hbody)
    have htag := hblock.derives.tag_eq rfl
    exact ⟨j, (hblock.statement_of_block.block_holds htag).present List.mem_cons_self hm⟩
  · cases hm

theorem Sits.listed_program (h : a.Sits .program n) (hm : m ∈ a.tree.listed n) :
    a.Sits (.statement .never) m := by
  have htag := h.derives.tag_eq rfl
  have hholds : a.tree.Holds n [⟨.many, "body", .statement .never⟩] a.Sits :=
    h.holds (by rw [htag]; rfl) (by simp only [Grammar.production, Tree.is, htag, beq_self_eq_true, if_true])
  simp only [Tree.listed, htag] at hm
  exact hholds.present List.mem_cons_self hm

theorem Sits.declarator (h : a.Sits (.statement j) n) (hd : d ∈ a.tree.declarators n) :
    a.Sits .declarator d := by
  have hhead (htag : a.tree.tag n = "ForInStatement" ∨ a.tree.tag n = "ForOfStatement")
      (hd : d ∈ a.tree.headDeclarators n) : a.Sits .declarator d := by
    obtain ⟨left, hleft, hkind, hd⟩ := Tree.mem_headDeclarators.mp hd
    have hsits : a.Sits .forLeft left := (h.iteration_holds htag).required (by simp) hleft
    have hholds : a.tree.Holds left [⟨.many, "declarations", .declarator⟩] a.Sits :=
      hsits.holds (by rw [eq_of_beq hkind]; rfl) (by simp only [Grammar.production, hkind, if_true])
    exact hholds.present List.mem_cons_self hd
  unfold Tree.declarators at hd
  split at hd
  next htag => exact (h.declaration_holds htag).present List.mem_cons_self hd
  next htag => exact hhead (Or.inl htag) hd
  next htag => exact hhead (Or.inr htag) hd
  · cases hd

theorem Sits.opened (h : a.Sits (.statement j) n) (hblock : block ∈ a.tree.openedBlocks n) :
    a.tree.Walked a.links.root block := by
  unfold Tree.openedBlocks at hblock
  split at hblock
  · exact List.mem_singleton.mp hblock ▸ h.visited
  · exact List.mem_singleton.mp hblock ▸ h.visited
  · exact List.mem_singleton.mp hblock ▸ h.visited
  next htag => exact (h.handlerBody htag (Option.mem_toList.mp hblock)).visited
  · cases hblock

/-! ## What is evaluated -/

theorem Sits.evaluates (h : a.Sits k n) (hk : k.isEvaluated = true) : a.Evaluates n := by
  cases k with
  | expression => exact Or.inl h.derives
  | statement j => exact Or.inr (Or.inl ⟨j, h⟩)
  | block j => exact Or.inr (Or.inl ⟨j, h.statement_of_block⟩)
  | forInit =>
    by_cases htag : a.tree.is n "VariableDeclaration" = true
    · exact Or.inr (Or.inl ⟨.never, h.visited,
        h.derives.of_production (by simp only [Grammar.production, htag, if_true])⟩)
    · exact Or.inl (h.derives.of_production
        (by simp only [Grammar.production, htag, if_false, Bool.false_eq_true]))
  | _ => cases hk

/-- The rule of a statement asks for what its activation evaluates. -/
theorem Sits.evaluated (h : a.Sits (.statement j) n) (hm : m ∈ a.tree.evaluated n) : a.Evaluates m := by
  obtain ⟨hsupported, hopen⟩ := Tree.supported_of_evaluated hm
  obtain ⟨slots, hslots⟩ := h.derives.exists_production
  have hholds := h.holds hopen hslots
  have hfields {keys : List String} (hkeys : ∀ key ∈ keys, ∃ k, k.isEvaluated = true ∧
        (⟨.one, key, k⟩ ∈ slots ∨ ⟨.optional, key, k⟩ ∈ slots))
      (hm : m ∈ a.tree.inFields n keys) : a.Evaluates m := by
    obtain ⟨key, hkey, hchild⟩ := Tree.mem_inFields.mp hm
    obtain ⟨k, hk, hone | hoptional⟩ := hkeys key hkey
    · exact (hholds.required hone hchild).evaluates hk
    · exact (hholds.optional hoptional hchild).evaluates hk
  have hlisted (hm : m ∈ a.tree.listed n) : a.Evaluates m := by
    obtain ⟨inner, hsits⟩ := h.listed hm
    exact hsits.evaluates rfl
  have hcase {case : NodeId} (htag : a.tree.tag n = "SwitchStatement") (hcase : case ∈ a.tree.present n "cases")
      (hm : m ∈ a.tree.inFields case ["test"]) : a.Evaluates m := by
    have hsits : a.Sits (.switchCase j.inSwitch) case := (h.switch_holds htag).present (by simp) hcase
    exact (hsits.case_holds.inFields (k := .expression) (by simp) hm).evaluates rfl
  have hdeclarator {declarator : NodeId} (htag : a.tree.tag n = "VariableDeclaration")
      (hdeclarator : declarator ∈ a.tree.present n "declarations")
      (hm : m ∈ a.tree.inFields declarator ["init"]) : a.Evaluates m := by
    have hsits : a.Sits .declarator declarator := (h.declaration_holds htag).present (by simp) hdeclarator
    exact (hsits.declarator_holds.inFields (k := .expression) (by simp) hm).evaluates rfl
  simp only [Grammar.production, Grammar.statementSlots] at hslots
  split at hslots
  case h_20 =>
    rw [Grammar.unsupportedSlots, hsupported] at hslots
    cases hslots
  all_goals
    rename_i htag
    simp only [Tree.evaluated, htag] at hm
  · exact hlisted hm
  · cases hslots
    exact hfields (by simp [NodeKind.isEvaluated]) hm
  · cases hm
  · cases hm
  · cases hm
  · cases hm
  · obtain ⟨declarator, hmem, hm⟩ := List.mem_flatMap.mp hm
    exact hdeclarator htag hmem hm
  · cases hslots
    exact hfields (by simp [NodeKind.isEvaluated]) hm
  · cases hslots
    exact hfields (by simp [NodeKind.isEvaluated]) hm
  · cases hslots
    exact hfields (by simp [NodeKind.isEvaluated]) hm
  · cases hslots
    exact hfields (by simp [NodeKind.isEvaluated]) hm
  · cases hslots
    exact hfields (by simp [NodeKind.isEvaluated]) hm
  · cases hslots
    exact hfields (by simp [NodeKind.isEvaluated]) hm
  · cases hslots
    obtain hm | hm := List.mem_append.mp hm
    · obtain hm | hm := List.mem_append.mp hm
      · exact hfields (by simp [NodeKind.isEvaluated]) hm
      · obtain ⟨case, hmem, hm⟩ := List.mem_flatMap.mp hm
        exact hcase htag hmem hm
    · exact hlisted hm
  · cases hm
  · cases hm
  · split at hslots
    · cases hslots
      exact hfields (by simp [NodeKind.isEvaluated]) hm
    · cases hslots
  · cases hslots
    exact hfields (by simp [NodeKind.isEvaluated]) hm
  · cases hslots
    obtain hm | hm := List.mem_append.mp hm
    · exact hfields (by simp [NodeKind.isEvaluated]) hm
    · exact hlisted hm

/-- **What the rule of an evaluated node asks for is evaluated in its turn.** -/
theorem Evaluates.evaluated (h : a.Evaluates n) (hm : m ∈ a.tree.evaluated n) : a.Evaluates m := by
  obtain hexpression | ⟨j, hstatement⟩ | hprogram := h
  · exact Or.inl (hexpression.evaluated hm)
  · exact hstatement.evaluated hm
  · have htag := hprogram.derives.tag_eq rfl
    simp only [Tree.evaluated, htag] at hm
    exact (hprogram.listed_program hm).evaluates rfl

/-- What opens blocks or declares, and is no program, is a statement. -/
theorem Evaluates.statement (h : a.Evaluates n) (htag : a.tree.tag n ∈ Tag.opening)
    (hprogram : a.tree.tag n ≠ "Program") : ∃ j, a.Sits (.statement j) n := by
  obtain hexpression | hstatement | hroot := h
  · exact absurd htag hexpression.tag_of_expression
  · exact hstatement
  · exact absurd (hroot.derives.tag_eq rfl) hprogram

theorem Evaluates.opened (h : a.Evaluates n) (hblock : block ∈ a.tree.openedBlocks n) :
    a.tree.Walked a.links.root block := by
  obtain ⟨htag, hprogram⟩ := Tree.opening_of_openedBlocks hblock
  obtain ⟨j, hstatement⟩ := h.statement htag hprogram
  exact hstatement.opened hblock

theorem Evaluates.declarator (h : a.Evaluates n) (hd : d ∈ a.tree.declarators n) : a.Sits .declarator d := by
  obtain ⟨htag, hprogram⟩ := Tree.opening_of_declarators hd
  obtain ⟨j, hstatement⟩ := h.statement htag hprogram
  exact hstatement.declarator hd

theorem Evaluates.listed (h : a.Evaluates n) (hm : m ∈ a.tree.listed n) : a.tree.Walked a.links.root m := by
  obtain hexpression | ⟨j, hstatement⟩ | hprogram := h
  · exact absurd (Tree.opening_of_listed hm) hexpression.tag_of_expression
  · obtain ⟨inner, hsits⟩ := hstatement.listed hm
    exact hsits.visited
  · exact (hprogram.listed_program hm).visited

/-- An evaluated assignment is an expression. -/
theorem Evaluates.assignment (h : a.Evaluates n) (htag : a.tree.tag n = "AssignmentExpression") :
    a.tree.Derives .expression n := by
  obtain hexpression | ⟨j, hstatement⟩ | hprogram := h
  · exact hexpression
  · obtain ⟨slots, hslots⟩ := hstatement.derives.exists_production
    have hsupported : (RuleTable.default.get? (a.tree.tag n)).isNone = false := by
      rw [htag, RuleTable.default, Dict.get?_ofList (by decide)]
      rfl
    simp only [Grammar.production, Grammar.statementSlots, htag] at hslots
    rw [Grammar.unsupportedSlots, hsupported] at hslots
    cases hslots
  · exact absurd (htag.symm.trans (hprogram.derives.tag_eq rfl)) (by decide)

/-- **What the rule of an evaluated node binds is a pattern.** -/
theorem Evaluates.binds (h : a.Evaluates n) {declares : Bool} (hbinds : a.tree.Binds n p declares) :
    a.tree.Derives (.pattern declares) p := by
  cases hbinds with
  | declarator hd hid =>
    exact ((h.declarator hd).declarator_holds.required (k := .pattern true) (by simp) hid).derives
  | parameter htag hclause hparam =>
    obtain ⟨j, hstatement⟩ := h.statement (by simp [htag, Tag.opening]) (by simp [htag])
    have hsits : a.Sits (.catchClause j) _ := (hstatement.try_holds htag).optional (by simp) hclause
    exact (hsits.clause_holds.optional (k := .pattern true) (by simp) hparam).derives
  | assigned htag hleft hkind =>
    obtain ⟨k, hk, hholds⟩ := (h.assignment htag).assignment htag
    have hderives := (hholds.required (k := k) (by simp) hleft).derives
    obtain rfl | rfl := hk
    · exact hderives.pattern_of_assignable hkind
    · -- a single target is no destructuring pattern
      obtain ⟨htarget | htarget, -⟩ := hderives.expression_of_target
      · simp [Tree.is, htarget] at hkind
      · simp [Tree.is, htarget] at hkind
  | iterated htag hleft hkind =>
    have hopening : a.tree.tag n ∈ Tag.opening ∧ a.tree.tag n ≠ "Program" := by
      obtain htag | htag := htag <;> simp [htag, Tag.opening]
    obtain ⟨j, hstatement⟩ := h.statement hopening.1 hopening.2
    have hsits : a.Sits .forLeft _ := (hstatement.iteration_holds htag).required (by simp) hleft
    exact hsits.derives.of_production (by simp only [Grammar.production, hkind, if_false, Bool.false_eq_true])

/-- What fits is evaluated by its activation. -/
theorem evaluates_of_fits {s : ScopeId} (h : (Task.eval a n s).Fits j) : a.Sound ∧ a.Evaluates n := by
  obtain ⟨ha, ⟨-, hexpression⟩ | hstatement | ⟨-, hprogram⟩⟩ := h
  · exact ⟨ha, Or.inl hexpression.derives⟩
  · exact ⟨ha, Or.inr (Or.inl ⟨j, hstatement.standing.visited, hstatement.derives⟩)⟩
  · exact ⟨ha, Or.inr (Or.inr ⟨hprogram.standing.visited, hprogram.derives⟩)⟩

/-! ## What is reserved -/

variable {g : ScopeGraph} {names : List String}

/-- The target of a declaration that is carried out owns its names. -/
theorem Evaluates.declares (h : a.Evaluates n) (hr : a.links.Reserves a.tree g)
    (hdeclares : a.tree.Declares n d names) :
    ∃ target, a.links.target? d = some target ∧ names ⊆ g.ownNames target := by
  cases hdeclares with
  | declarator hd hid =>
    have hsits := h.declarator hd
    exact hr.declarator hsits.visited (hsits.derives.tag_eq rfl) hid
  | function hd =>
    obtain ⟨hlisted, hkind⟩ := Tree.mem_functionsIn.mp hd
    exact hr.function (h.listed hlisted) (eq_of_beq hkind)

/-- The body of a handler owns the names of its parameter. -/
theorem Evaluates.catches (h : a.Evaluates n) (hr : a.links.Reserves a.tree g) {body : NodeId}
    (hcatches : a.tree.Catches n body names) :
    ∃ own, a.links.scope? body = some own ∧ names ⊆ g.ownNames own := by
  obtain ⟨htag, clause, param, hclause, hbody, hparam, rfl⟩ := hcatches
  obtain ⟨j, hstatement⟩ := h.statement (by simp [htag, Tag.opening]) (by simp [htag])
  have hsits : a.Sits (.catchClause j) clause := (hstatement.try_holds htag).optional (by simp) hclause
  have hblock : a.Sits (.block j) body := hsits.clause_holds.required (by simp) hbody
  exact hr.clause hsits.visited (hsits.derives.tag_eq rfl) hbody (hblock.derives.tag_eq rfl) hparam

end Activation

end ScriptCore

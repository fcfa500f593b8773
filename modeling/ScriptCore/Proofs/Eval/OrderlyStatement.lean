import ScriptCore.Proofs.Eval.OrderlyExpression

/-!
# Orderly statements

Statements stand where the resolution visited them, in the scope that it stamped on their parents: the
rules hand that scope down, and a block takes the one it was given. The exits that leave a statement are
those that its place allows, since loops and switches take what they receive.
-/
namespace ScriptCore

namespace Activation

variable {a : Activation} {k : NodeKind} {n child : NodeId} {own : ScopeId}

/-- A child of an entered block stands in the scope of the block. -/
theorem Entered.has (ha : a.Sound) (h : a.Entered n own)
    (hopen : Tag.isClosed (a.tree.tag n) = false) (hexempt : ¬ a.tree.Exempt n child)
    (hchild : a.tree.Has n k child) : a.StandsAt k child own :=
  ⟨hchild.derives, h.standing ha hopen hchild.visited hexempt⟩

end Activation

theorem Jumps.Allows.of_inLoop {host : Host} {j : Jumps} {e : Abrupt} (h : j.inLoop.Allows host e)
    (hbroke : e ≠ .broke) (hcontinued : e ≠ .continued) : j.Allows host e := by
  cases e with
  | broke => exact absurd rfl hbroke
  | continued => exact absurd rfl hcontinued
  | _ => exact h

theorem Jumps.Allows.of_inSwitch {host : Host} {j : Jumps} {e : Abrupt} (h : j.inSwitch.Allows host e)
    (hbroke : e ≠ .broke) : j.Allows host e := by
  cases e with
  | broke => exact absurd rfl hbroke
  | _ => exact h

namespace Context

open Eval

variable {host : Host} {c : Context} {n : NodeId} {s own : ScopeId} {j : Jumps}

/-! ## Statement lists and blocks -/

theorem behaves_instantiateFunctions (ha : c.Sound) {inner : Jumps} {statements : List NodeId}
    (h : ∀ statement ∈ statements, c.tree.Derives (.statement inner) statement) :
    (c.instantiateFunctions s statements).Behaves host j := by
  induction statements with
  | nil => exact Eval.behaves_pure _
  | cons statement rest ih =>
    have hrest := ih fun statement hmem => h statement (List.mem_cons_of_mem _ hmem)
    rw [instantiateFunctions]
    split
    next htag =>
      have hfunction := Tree.functionAt_of_statement (h statement List.mem_cons_self) (eq_of_beq htag)
      split
      · exact (behaves_createClosure ha hfunction none).bind fun closure =>
          (behaves_scopes _).bind fun _ => hrest
      · exact hrest
    · exact hrest

theorem behaves_evalStatements (ha : c.Sound) {key : String}
    (h : ∀ statement ∈ c.tree.present n key, c.StandsAt (.statement j) statement s) :
    (c.evalStatements n key s).Behaves host j :=
  (behaves_instantiateFunctions ha fun statement hmem => (h statement hmem).derives).bind fun _ =>
    behaves_evalEach (fun statement hmem => behaves_evalStatement ha (h statement hmem)) _

/-- A block that stands somewhere has a scope of the resolution, and takes it. -/
theorem behaves_inBlock {α : Type} (ha : c.Sound) (h : c.Standing n s) {body : ScopeId → Eval α}
    (hbody : ∀ own, c.Entered n own → (body own).Behaves host j) :
    (c.blockScope n s >>= body).Behaves host j := by
  obtain ⟨own, hentered⟩ := h.exists_entered ha
  have hscope : (c.blockScope n s).Keeps (orderly host) (fun found => found = own)
      (j.Allows host) := by
    rw [blockScope, hentered.scope]
    exact keeps_pure rfl
  refine Keeps.bind hscope fun found hfound => ?_
  rw [hfound]
  exact hbody own hentered

/-- The statements of an entered block. -/
theorem behaves_blockBody (ha : c.Sound) (h : c.tree.Derives (.statement j) n)
    (htag : c.tree.tag n = "BlockStatement") (hentered : c.Entered n own) :
    (c.evalStatements n "body" own).Behaves host j := by
  have hexempt (child : NodeId) : ¬ c.tree.Exempt n child := by
    simp [Tree.Exempt, htag]
  exact behaves_evalStatements ha fun statement hmem => hentered.has ha (by rw [htag]; rfl)
    (hexempt statement) ((h.holds_block htag).present List.mem_cons_self hmem)

theorem behaves_blockStatement (ha : c.Sound) (h : c.StandsAt (.statement j) n s)
    (htag : c.tree.tag n = "BlockStatement") : (c.blockStatement n s).Behaves host j :=
  behaves_inBlock ha h.standing fun _ hentered => behaves_blockBody ha h.derives htag hentered

theorem behaves_program (ha : c.Sound) (h : c.StandsAt .program n s) :
    (c.program n s).Behaves host .never := by
  have htag := h.derives.tag_eq rfl
  obtain ⟨slots, hslots, hholds⟩ := h.holds ha (by rw [htag]; rfl)
  simp only [Grammar.production, Tree.is, htag, beq_self_eq_true, if_true] at hslots
  cases hslots
  exact behaves_evalStatements ha fun statement hmem => hholds.present List.mem_cons_self hmem

theorem behaves_expressionStatement (ha : c.Sound) (h : c.StandsAt (.statement j) n s)
    (htag : c.tree.tag n = "ExpressionStatement") : (c.expressionStatement n s).Behaves host j := by
  obtain ⟨slots, hslots, hholds⟩ := h.holds ha (by rw [htag]; rfl)
  simp only [Grammar.production, Grammar.statementSlots, htag] at hslots
  cases hslots
  exact Keeps.bind (keeps_require hholds List.mem_cons_self) fun expression hexpression =>
    behaves_eval ha hexpression.at

/-! ## Declarations -/

/-- What a declarator holds. -/
theorem holds_declarator (ha : c.Sound) (h : c.StandsAt .declarator n s) :
    c.tree.Holds n [⟨.one, "id", .pattern true⟩, ⟨.optional, "init", .expression⟩]
      fun k child => c.StandsAt k child s := by
  have htag := h.derives.tag_eq rfl
  obtain ⟨slots, hslots, hholds⟩ := h.holds ha (by rw [htag]; rfl)
  simp only [Grammar.production, Tree.is, htag, beq_self_eq_true, if_true] at hslots
  cases hslots
  exact hholds

theorem behaves_declarator (ha : c.Sound) (h : c.StandsAt .declarator n s) (isVar : Bool) :
    (c.declarator n isVar s).Behaves host j := by
  have hholds := holds_declarator ha h
  refine Keeps.bind (keeps_require hholds List.mem_cons_self) fun id hid => ?_
  split
  next init hinit =>
    have hat : c.StandsAt .expression init s := hholds.optional (by simp) hinit
    have hpattern : c.At (.pattern (Binding.declare (c.declarationTarget n s)).declares) id s :=
      hid.at
    exact (behaves_evalNamed ha hat.at _).bind fun value => behaves_bind ha hpattern value
  · split
    · exact Eval.behaves_pure _
    · exact behaves_scopes _

theorem behaves_declarators (ha : c.Sound) (isVar : Bool) {nodes : List NodeId}
    (h : ∀ node ∈ nodes, c.StandsAt .declarator node s) :
    (c.declarators isVar s nodes).Behaves host j := by
  induction nodes with
  | nil => exact Eval.behaves_pure _
  | cons node rest ih =>
    have hrest := ih fun node hmem => h node (List.mem_cons_of_mem _ hmem)
    exact (behaves_declarator ha (h node List.mem_cons_self) isVar).bind fun _ => hrest

theorem behaves_variableDeclaration (ha : c.Sound) (h : c.StandsAt (.statement j) n s)
    (htag : c.tree.tag n = "VariableDeclaration") : (c.variableDeclaration n s).Behaves host j := by
  obtain ⟨slots, hslots, hholds⟩ := h.holds ha (by rw [htag]; rfl)
  simp only [Grammar.production, Grammar.statementSlots, htag] at hslots
  cases hslots
  exact behaves_declarators ha _ fun node hmem => hholds.present List.mem_cons_self hmem

/-! ## Branches and loops -/

theorem behaves_ifStatement (ha : c.Sound) (h : c.StandsAt (.statement j) n s)
    (htag : c.tree.tag n = "IfStatement") : (c.ifStatement n s).Behaves host j := by
  obtain ⟨slots, hslots, hholds⟩ := h.holds ha (by rw [htag]; rfl)
  simp only [Grammar.production, Grammar.statementSlots, htag] at hslots
  cases hslots
  refine Keeps.bind (keeps_require hholds List.mem_cons_self) fun test htest =>
    (behaves_eval ha htest.at).bind fun value => ?_
  split
  · exact Keeps.bind (keeps_require hholds (k := .statement j) (by simp))
      fun consequent hconsequent => behaves_evalStatement ha hconsequent
  · split
    next alternate halternate =>
      have hat : c.StandsAt (.statement j) alternate s := hholds.optional (by simp) halternate
      exact behaves_evalStatement ha hat
    · exact Eval.behaves_pure _

/-- The body of a loop may be left by `break` and `continue`, which the loop receives. -/
theorem behaves_bodyOnce (ha : c.Sound) {body : NodeId}
    (h : c.StandsAt (.statement j.inLoop) body s) : (c.bodyOnce body s).Behaves host j := by
  refine (behaves_evalStatement ha h).catching_bind (fun value => Eval.behaves_pure _) fun e he => ?_
  cases e with
  | broke => exact Eval.behaves_pure _
  | continued => exact Eval.behaves_pure _
  | _ => exact behaves_abrupt (he.of_inLoop (by simp) (by simp))

/-- The first part of a `for`: an expression, or declarations that no exit leaves. -/
theorem behaves_forInit (ha : c.Sound) {init : NodeId} (h : c.StandsAt .forInit init s) :
    (c.eval init s).Behaves host j := by
  by_cases htag : c.tree.is init "VariableDeclaration" = true
  · have hstatement : c.tree.Derives (.statement .never) init := by
      refine h.derives.of_production ?_
      simp only [Grammar.production, htag, if_true]
    have hat : c.StandsAt (.statement .never) init s := ⟨hstatement, h.standing⟩
    exact (behaves_evalStatement ha hat).of_never
  · have hexpression : c.tree.Derives .expression init := by
      refine h.derives.of_production ?_
      simp only [Grammar.production, htag, if_false, Bool.false_eq_true]
    exact behaves_eval ha ⟨hexpression, h.standing.placed⟩

theorem behaves_forStatement (ha : c.Sound) (h : c.StandsAt (.statement j) n s)
    (htag : c.tree.tag n = "ForStatement") : (c.forStatement n s).Behaves host j := by
  refine behaves_inBlock ha h.standing fun own hentered => ?_
  obtain ⟨slots, hslots⟩ := h.derives.exists_production
  have hholds : c.tree.Holds n slots fun k child => c.StandsAt k child own :=
    (h.derives.holds hslots).mono fun k child hchild =>
      hentered.has ha (by rw [htag]; rfl) (by simp [Tree.Exempt, htag]) hchild
  simp only [Grammar.production, Grammar.statementSlots, htag] at hslots
  cases hslots
  refine Keeps.bind (keeps_require hholds (k := .statement j.inLoop) (by simp)) fun body hbody => ?_
  have hloop : Loop.Fits ⟨c.tree.child? n "test", body, c.tree.child? n "update"⟩ c.toActivation own
      j.returns := by
    refine ⟨fun test htest => ?_, hbody, fun update hupdate => ?_⟩
    · have hat : c.StandsAt .expression test own := hholds.optional (by simp) htest
      exact hat.at
    · have hat : c.StandsAt .expression update own := hholds.optional (by simp) hupdate
      exact hat.at
  split
  next init hinit =>
    exact (behaves_forInit ha (hholds.optional List.mem_cons_self hinit)).bind fun _ =>
      behaves_loop ha hloop true
  · exact behaves_loop ha hloop true

/-- What a `while` or `do` loop evaluates again and again. -/
theorem fits_whileLoop {test body : NodeId} (htest : c.StandsAt .expression test s)
    (hbody : c.StandsAt (.statement j.inLoop) body s) :
    Loop.Fits ⟨some test, body, none⟩ c.toActivation s j.returns where
  test _ h := by
    cases h
    exact htest.at
  body := hbody
  update _ h := by cases h

theorem behaves_whileStatement (ha : c.Sound) (h : c.StandsAt (.statement j) n s)
    (htag : c.tree.tag n = "WhileStatement") : (c.whileStatement n s).Behaves host j := by
  obtain ⟨slots, hslots, hholds⟩ := h.holds ha (by rw [htag]; rfl)
  simp only [Grammar.production, Grammar.statementSlots, htag] at hslots
  cases hslots
  exact Keeps.bind (keeps_require hholds (k := .expression) (by simp)) fun test htest =>
    Keeps.bind (keeps_require hholds (k := .statement j.inLoop) (by simp)) fun body hbody =>
      behaves_loop ha (fits_whileLoop htest hbody) true

theorem behaves_doWhileStatement (ha : c.Sound) (h : c.StandsAt (.statement j) n s)
    (htag : c.tree.tag n = "DoWhileStatement") : (c.doWhileStatement n s).Behaves host j := by
  obtain ⟨slots, hslots, hholds⟩ := h.holds ha (by rw [htag]; rfl)
  simp only [Grammar.production, Grammar.statementSlots, htag] at hslots
  cases hslots
  exact Keeps.bind (keeps_require hholds (k := .expression) (by simp)) fun test htest =>
    Keeps.bind (keeps_require hholds (k := .statement j.inLoop) (by simp)) fun body hbody =>
      behaves_loop ha (fits_whileLoop htest hbody) false

/-- The left side of `for…in` and `for…of`. -/
theorem behaves_bindRound (ha : c.Sound) {left : NodeId} (h : c.StandsAt .forLeft left s)
    (value : Value) : (c.bindRound left value s).Behaves host j := by
  rw [bindRound]
  split
  next htag =>
    obtain ⟨slots, hslots, hholds⟩ := h.holds ha (by rw [eq_of_beq htag]; rfl)
    simp only [Grammar.production, htag, if_true] at hslots
    cases hslots
    split
    next declarator rest hdeclarations =>
      have hmem : some declarator ∈ c.tree.children left "declarations" := by
        rw [hdeclarations]
        exact List.mem_cons_self
      have hdeclarator : c.StandsAt .declarator declarator s :=
        hholds.present List.mem_cons_self (Tree.mem_present hmem)
      have hholds := holds_declarator ha hdeclarator
      refine Keeps.bind (keeps_require hholds List.mem_cons_self) fun id hid => ?_
      have hpattern : c.At (.pattern
          (Binding.declare (c.declarationTarget declarator s)).declares) id s := hid.at
      exact behaves_bind ha hpattern value
    · exact (behaves_fail rfl).raisedAt left
  next htag =>
    have hpattern : c.tree.Derives (.pattern Binding.assign.declares) left := by
      refine h.derives.of_production ?_
      simp only [Grammar.production, htag, if_false, Bool.false_eq_true, Binding.declares]
    exact behaves_bind ha ⟨hpattern, h.standing.placed⟩ value

theorem behaves_rounds (ha : c.Sound) {left body : NodeId} (hleft : c.StandsAt .forLeft left s)
    (hbody : c.StandsAt (.statement j.inLoop) body s) (values : List Value) :
    (c.rounds left body s values).Behaves host j := by
  induction values with
  | nil => exact Eval.behaves_pure _
  | cons value rest ih =>
    refine (behaves_bindRound ha hleft value).bind fun _ =>
      (behaves_bodyOnce ha hbody).bind fun on => ?_
    split
    · exact ih
    · exact Eval.behaves_pure _

/-- What `for…in` and `for…of` hold. -/
theorem holds_iteration (ha : c.Sound) (h : c.StandsAt (.statement j) n s)
    (htag : c.tree.tag n = "ForInStatement" ∨ c.tree.tag n = "ForOfStatement") :
    c.tree.Holds n [⟨.one, "left", .forLeft⟩, ⟨.one, "right", .expression⟩,
      ⟨.one, "body", .statement j.inLoop⟩] fun k child => c.StandsAt k child s := by
  rcases htag with htag | htag <;>
  · obtain ⟨slots, hslots, hholds⟩ := h.holds ha (by rw [htag]; rfl)
    simp only [Grammar.production, Grammar.statementSlots, htag] at hslots
    cases hslots
    exact hholds

theorem behaves_iteration (ha : c.Sound) (h : c.StandsAt (.statement j) n s)
    (htag : c.tree.tag n = "ForInStatement" ∨ c.tree.tag n = "ForOfStatement")
    (values : List Value) : (c.iteration n values s).Behaves host j := by
  have hholds := holds_iteration ha h htag
  exact Keeps.bind (keeps_require hholds (k := .forLeft) (by simp)) fun left hleft =>
    Keeps.bind (keeps_require hholds (k := .statement j.inLoop) (by simp)) fun body hbody =>
      behaves_rounds ha hleft hbody values

theorem behaves_forInStatement (ha : c.Sound) (h : c.StandsAt (.statement j) n s)
    (htag : c.tree.tag n = "ForInStatement") : (c.forInStatement n s).Behaves host j := by
  have hholds := holds_iteration ha h (Or.inl htag)
  exact Keeps.bind (keeps_require hholds (k := .expression) (by simp)) fun right hright =>
    (behaves_eval ha hright.at).bind fun subject => (behaves_reads _).bind fun keys =>
      behaves_iteration ha h (Or.inl htag) _

theorem behaves_forOfStatement (ha : c.Sound) (h : c.StandsAt (.statement j) n s)
    (htag : c.tree.tag n = "ForOfStatement") : (c.forOfStatement n s).Behaves host j := by
  have hholds := holds_iteration ha h (Or.inr htag)
  exact Keeps.bind (keeps_require hholds (k := .expression) (by simp)) fun right hright =>
    (behaves_eval ha hright.at).bind fun subject =>
      ((behaves_checks fun _ _ h => World.iterate_error h).raisedAt right).bind fun values =>
        behaves_iteration ha h (Or.inr htag) values

/-! ## Switch -/

/-- What a case of a switch holds. -/
theorem holds_switchCase (ha : c.Sound) (h : c.StandsAt (.switchCase j) n s) :
    c.tree.Holds n [⟨.optional, "test", .expression⟩, ⟨.many, "consequent", .statement j⟩]
      fun k child => c.StandsAt k child s := by
  have htag := h.derives.tag_eq rfl
  obtain ⟨slots, hslots, hholds⟩ := h.holds ha (by rw [htag]; rfl)
  simp only [Grammar.production, Tree.is, htag, beq_self_eq_true, if_true] at hslots
  cases hslots
  exact hholds

/-- The cases of a switch stand in its scope; the discriminant is evaluated around it. -/
theorem holds_switchStatement (ha : c.Sound) (h : c.StandsAt (.statement j) n s)
    (htag : c.tree.tag n = "SwitchStatement") :
    (∃ discriminant, c.tree.child? n "discriminant" = some discriminant ∧
        c.At .expression discriminant s) ∧
      ∀ own, c.Entered n own → ∀ case ∈ c.tree.present n "cases",
        c.StandsAt (.switchCase j.inSwitch) case own := by
  obtain ⟨slots, hslots⟩ := h.derives.exists_production
  have hholds := h.derives.holds hslots
  simp only [Grammar.production, Grammar.statementSlots, htag] at hslots
  cases hslots
  obtain ⟨discriminant, hdiscriminant, hhas⟩ : ∃ discriminant,
      c.tree.child? n "discriminant" = some discriminant ∧ c.tree.Has n .expression discriminant :=
    hholds.one List.mem_cons_self
  refine ⟨⟨discriminant, hdiscriminant, hhas.derives, ?_⟩, fun own hentered case hcase => ?_⟩
  · exact ha.placed_exempt (by rw [htag]; rfl) hhas.visited (Or.inl ⟨htag, hdiscriminant⟩)
  · have hhasCase : c.tree.Has n (.switchCase j.inSwitch) case := hholds.present (by simp) hcase
    refine hentered.has ha (by rw [htag]; rfl) ?_ hhasCase
    rintro (⟨-, hchild⟩ | ⟨hclause, -⟩)
    · obtain ⟨items, hfield, hitem⟩ := Tree.field?_of_present hcase
      have hkey := ha.tree.key_eq hfield (Tree.field?_of_child? hchild) hitem (by simp [Field.children])
      simp at hkey
    · rw [htag] at hclause
      simp at hclause

theorem behaves_instantiateCases (ha : c.Sound) {inner : Jumps} {cases : List NodeId}
    (h : ∀ case ∈ cases, c.StandsAt (.switchCase inner) case s) :
    (c.instantiateCases s cases).Behaves host j := by
  induction cases with
  | nil => exact Eval.behaves_pure _
  | cons case rest ih =>
    have hrest := ih fun case hmem => h case (List.mem_cons_of_mem _ hmem)
    have hholds := holds_switchCase ha (h case List.mem_cons_self)
    have hderives (statement : NodeId) (hmem : statement ∈ c.tree.present case "consequent") :
        c.tree.Derives (.statement inner) statement :=
      (hholds.present (k := .statement inner) (by simp) hmem).derives
    exact (behaves_instantiateFunctions ha hderives).bind fun _ => hrest

/-- The selected cases are among those of the switch. -/
theorem keeps_selectCase (ha : c.Sound) {inner : Jumps} (discriminant : Value)
    {cases : List (Option NodeId)}
    (h : ∀ case, some case ∈ cases → c.StandsAt (.switchCase inner) case s) :
    (c.selectCase discriminant s cases).Keeps (orderly host)
      (fun found => ∀ chosen, found = some chosen → chosen ⊆ cases) (j.Allows host) := by
  induction cases with
  | nil => exact keeps_pure (by simp)
  | cons case rest ih =>
    have hrest : (c.selectCase discriminant s rest).Keeps (orderly host)
        (fun found => ∀ chosen, found = some chosen → chosen ⊆ case :: rest) (j.Allows host) :=
      (ih fun case hmem => h case (List.mem_cons_of_mem _ hmem)).mono
        (fun found hfound chosen heq => List.Subset.trans (hfound chosen heq)
          (List.subset_cons_self _ _)) fun _ => id
    rw [selectCase]
    split
    next test htest =>
      obtain ⟨case, rfl, hchild⟩ := Option.bind_eq_some_iff.mp htest
      have hholds := holds_switchCase ha (h case List.mem_cons_self)
      have hat : c.StandsAt .expression test s := hholds.optional List.mem_cons_self hchild
      refine Keeps.bind (behaves_eval ha hat.at) fun value _ => ?_
      split
      · exact keeps_pure fun chosen heq => by
          cases heq
          exact List.Subset.refl _
      · exact hrest
    · exact hrest

theorem behaves_runCases (ha : c.Sound) {statements : List NodeId}
    (h : ∀ statement ∈ statements, c.StandsAt (.statement j.inSwitch) statement s) :
    (c.runCases s statements).Behaves host j := by
  induction statements with
  | nil => exact Eval.behaves_pure _
  | cons statement rest ih =>
    have hrest := ih fun statement hmem => h statement (List.mem_cons_of_mem _ hmem)
    refine (behaves_evalStatement ha (h statement List.mem_cons_self)).catching_bind
      (fun value => hrest) fun e he => ?_
    cases e with
    | broke => exact Eval.behaves_pure _
    | _ => exact behaves_abrupt (he.of_inSwitch (by simp))

theorem behaves_switchStatement (ha : c.Sound) (h : c.StandsAt (.statement j) n s)
    (htag : c.tree.tag n = "SwitchStatement") : (c.switchStatement n s).Behaves host j := by
  obtain ⟨⟨discriminant, hchild, hat⟩, hcases⟩ := holds_switchStatement ha h htag
  refine Keeps.bind (keeps_child hchild) fun found hfound => ?_
  rw [hfound]
  refine (behaves_eval ha hat).bind fun value => behaves_inBlock ha h.standing fun own hentered => ?_
  have hstands := hcases own hentered
  have hpresent (case : NodeId) (hmem : some case ∈ c.tree.children n "cases") :
      c.StandsAt (.switchCase j.inSwitch) case own := hstands case (Tree.mem_present hmem)
  refine (behaves_instantiateCases ha hstands).bind fun _ =>
    Keeps.bind (keeps_selectCase ha value hpresent) fun selected hselected => ?_
  refine behaves_runCases ha fun statement hstatement => ?_
  -- whatever is chosen, it is among the cases
  have hchosen : selected.getD (c.defaultCase (c.tree.children n "cases")) ⊆
      c.tree.children n "cases" := by
    cases selected with
    | none => exact (List.dropWhile_suffix _).subset
    | some chosen => exact hselected chosen rfl
  obtain ⟨case, hcase, hconsequent⟩ := List.mem_flatMap.mp hstatement
  obtain ⟨item, hitem, rfl⟩ := List.mem_filterMap.mp hcase
  have hholds := holds_switchCase ha (hpresent case (hchosen hitem))
  exact hholds.present (k := .statement j.inSwitch) (by simp) hconsequent

/-! ## Exits -/

theorem behaves_unlabelled {exit : Abrupt}
    (h : (c.tree.child? n "label").isSome = true ∨ j.Allows host exit) :
    (c.unlabelled n exit).Behaves host j := by
  rw [unlabelled]
  split
  · exact behaves_fail rfl
  next hlabel =>
    rcases h with h | h
    · exact absurd h hlabel
    · exact behaves_abrupt h

theorem behaves_breakStatement (h : c.tree.Derives (.statement j) n)
    (htag : c.tree.tag n = "BreakStatement") (s : ScopeId) :
    (c.breakStatement n s).Behaves host j := by
  obtain ⟨slots, hslots⟩ := h.exists_production
  simp only [Grammar.production, Grammar.statementSlots, htag] at hslots
  split at hslots
  next hallowed =>
    rw [Bool.or_eq_true] at hallowed
    exact behaves_unlabelled hallowed
  · cases hslots

theorem behaves_continueStatement (h : c.tree.Derives (.statement j) n)
    (htag : c.tree.tag n = "ContinueStatement") (s : ScopeId) :
    (c.continueStatement n s).Behaves host j := by
  obtain ⟨slots, hslots⟩ := h.exists_production
  simp only [Grammar.production, Grammar.statementSlots, htag] at hslots
  split at hslots
  next hallowed =>
    rw [Bool.or_eq_true] at hallowed
    exact behaves_unlabelled hallowed
  · cases hslots

theorem behaves_returnStatement (ha : c.Sound) (h : c.StandsAt (.statement j) n s)
    (htag : c.tree.tag n = "ReturnStatement") : (c.returnStatement n s).Behaves host j := by
  obtain ⟨slots, hslots, hholds⟩ := h.holds ha (by rw [htag]; rfl)
  simp only [Grammar.production, Grammar.statementSlots, htag] at hslots
  split at hslots
  next hreturns =>
    cases hslots
    rw [returnStatement]
    split
    next argument hargument =>
      have hat : c.StandsAt .expression argument s := hholds.optional List.mem_cons_self hargument
      exact (behaves_eval ha hat.at).bind fun value => behaves_abrupt hreturns
    · exact behaves_abrupt hreturns
  · cases hslots

theorem behaves_throwStatement (ha : c.Sound) (h : c.StandsAt (.statement j) n s)
    (htag : c.tree.tag n = "ThrowStatement") : (c.throwStatement n s).Behaves host j := by
  obtain ⟨slots, hslots, hholds⟩ := h.holds ha (by rw [htag]; rfl)
  simp only [Grammar.production, Grammar.statementSlots, htag] at hslots
  cases hslots
  exact Keeps.bind (keeps_require hholds List.mem_cons_self) fun argument hargument =>
    (behaves_eval ha hargument.at).bind fun value => behaves_abrupt trivial

/-- A catch clause binds its parameter in the scope of its body, which is a block of its own. -/
theorem behaves_catchClause (ha : c.Sound) (h : c.StandsAt (.catchClause j) n s) (thrown : Value) :
    (c.catchClause n thrown s).Behaves host j := by
  have htag := h.derives.tag_eq rfl
  obtain ⟨slots, hslots⟩ := h.derives.exists_production
  have hholds := h.derives.holds hslots
  simp only [Grammar.production, Tree.is, htag, beq_self_eq_true, if_true] at hslots
  cases hslots
  obtain ⟨body, hbody, hhas⟩ : ∃ body, c.tree.child? n "body" = some body ∧
      c.tree.Has n (.block j) body := hholds.one (by simp)
  have hentered := h.standing.entered ha (by rw [htag]; rfl)
  have hstands : c.StandsAt (.block j) body s := by
    refine hentered.has ha (by rw [htag]; rfl) ?_ hhas
    rintro (⟨hswitch, -⟩ | ⟨-, hparam⟩)
    · rw [htag] at hswitch
      simp at hswitch
    · have hin : body ∈ (Field.node body).children := List.mem_singleton_self body
      have hkey := ha.tree.key_eq (Tree.field?_of_child? hbody) (Tree.field?_of_child? hparam) hin hin
      simp at hkey
  refine Keeps.bind (keeps_child hbody) fun found hfound => ?_
  rw [hfound]
  refine behaves_inBlock ha hstands.standing fun own hown => ?_
  have hrun : (c.evalStatements body "body" own).Behaves host j :=
    behaves_blockBody ha hhas.derives.statement_of_block (hhas.derives.tag_eq rfl) hown
  split
  next param hparam =>
    have hhasParam : c.tree.Has n (.pattern true) param := hholds.optional List.mem_cons_self hparam
    have hpattern : c.At (.pattern (Binding.declare own).declares) param own :=
      ⟨hhasParam.derives, ha.placed_exempt (by rw [htag]; rfl) hhasParam.visited
        (Or.inr ⟨htag, hparam⟩)⟩
    exact (behaves_bind ha hpattern thrown).bind fun _ => hrun
  · exact hrun

theorem behaves_tryStatement (ha : c.Sound) (h : c.StandsAt (.statement j) n s)
    (htag : c.tree.tag n = "TryStatement") : (c.tryStatement n s).Behaves host j := by
  obtain ⟨slots, hslots, hholds⟩ := h.holds ha (by rw [htag]; rfl)
  simp only [Grammar.production, Grammar.statementSlots, htag] at hslots
  cases hslots
  have hblock {block : NodeId} (hstands : c.StandsAt (.block j) block s) :
      (c.eval block s).Behaves host j :=
    behaves_evalStatement ha ⟨hstands.derives.statement_of_block, hstands.standing⟩
  have hguarded {block : NodeId} (hstands : c.StandsAt (.block j) block s) :
      (c.guardedBlock n block s).Behaves host j := by
    refine (hblock hstands).catching_bind (fun value => Eval.behaves_pure _) fun e he => ?_
    cases e with
    | threw thrown =>
      cases hhandler : c.tree.child? n "handler" with
      | none => exact behaves_abrupt he
      | some handler => exact behaves_catchClause ha (hholds.optional (by simp) hhandler) thrown
    | _ => exact behaves_abrupt he
  have hend {outcome : Except Abrupt Value} (he : ∀ e, outcome = .error e → j.Allows host e) :
      (tryStatement.resume outcome).Behaves host j := by
    cases outcome with
    | ok value => exact Eval.behaves_pure _
    | error e => exact behaves_abrupt (he e rfl)
  refine Keeps.bind (keeps_require hholds (k := .block j) (by simp)) fun block hstands =>
    Keeps.bind (hguarded hstands).catching fun outcome he => ?_
  split
  next finalizer hfinalizer =>
    exact (hblock (hholds.optional (by simp) hfinalizer)).bind fun _ => hend he
  · exact hend he

end Context

/-! ## The table -/

open Eval

/-- The rule of an expression's tag behaves where the expression is placed. -/
theorem Rule.expression_behaves {host : Host} {c : Context} {n : NodeId} {s : ScopeId} {rule : Rule}
    (hrule : RuleTable.default.get? (c.tree.tag n) = some rule) (ha : c.Sound)
    (h : c.At .expression n s) : (rule.meaning host c n s).Behaves host .never := by
  have hmem := Dict.mem_of_get?_ofList hrule
  obtain ⟨slots, hslots⟩ := h.derives.exists_production
  simp only [Grammar.production, Grammar.expressionSlots] at hslots
  split at hslots
  case h_19 =>
    rw [Grammar.unsupportedSlots, hrule] at hslots
    cases hslots
  all_goals
    rename_i htag
    rw [htag] at hmem
    simp at hmem
    subst hmem
  · exact Context.behaves_identifier h htag
  · exact Context.behaves_literal h htag
  · exact behaves_reads _
  · exact Context.behaves_templateLiteral ha h htag
  · exact Context.behaves_arrayExpression ha h htag
  · exact Context.behaves_objectExpression ha h htag
  · exact Context.behaves_functionExpression ha h (Or.inl htag)
  · exact Context.behaves_functionExpression ha h (Or.inr htag)
  · exact Context.behaves_memberExpression ha h htag
  · exact Context.behaves_chainExpression ha h htag
  · exact Context.behaves_callExpression ha h htag
  · exact Context.behaves_unaryExpression ha h htag
  · exact Context.behaves_updateExpression ha h htag
  · exact Context.behaves_binaryExpression ha h htag
  · exact Context.behaves_logicalExpression ha h htag
  · exact Context.behaves_assignmentExpression ha h htag
  · exact Context.behaves_conditionalExpression ha h htag
  · exact Context.behaves_sequenceExpression ha h htag

/-- The rule of a statement's tag behaves where the statement stands. -/
theorem Rule.statement_behaves {host : Host} {c : Context} {n : NodeId} {s : ScopeId} {j : Jumps}
    {rule : Rule} (hrule : RuleTable.default.get? (c.tree.tag n) = some rule) (ha : c.Sound)
    (h : c.StandsAt (.statement j) n s) : (rule.meaning host c n s).Behaves host j := by
  have hmem := Dict.mem_of_get?_ofList hrule
  obtain ⟨slots, hslots⟩ := h.derives.exists_production
  simp only [Grammar.production, Grammar.statementSlots] at hslots
  split at hslots
  case h_20 =>
    rw [Grammar.unsupportedSlots, hrule] at hslots
    cases hslots
  all_goals
    rename_i htag
    rw [htag] at hmem
    simp at hmem
    subst hmem
  · exact Context.behaves_blockStatement ha h htag
  · exact Context.behaves_expressionStatement ha h htag
  · exact behaves_pure _
  · exact behaves_pure _
  · exact behaves_pure _
  · exact behaves_pure _
  · exact Context.behaves_variableDeclaration ha h htag
  · exact Context.behaves_ifStatement ha h htag
  · exact Context.behaves_forStatement ha h htag
  · exact Context.behaves_forInStatement ha h htag
  · exact Context.behaves_forOfStatement ha h htag
  · exact Context.behaves_whileStatement ha h htag
  · exact Context.behaves_doWhileStatement ha h htag
  · exact Context.behaves_switchStatement ha h htag
  · exact Context.behaves_breakStatement h.derives htag s
  · exact Context.behaves_continueStatement h.derives htag s
  · exact Context.behaves_returnStatement ha h htag
  · exact Context.behaves_throwStatement ha h htag
  · exact Context.behaves_tryStatement ha h htag

end ScriptCore

import ScriptCore.Proofs.Eval.OrderlyFunction

/-!
# Orderly expressions

Places, patterns, expressions and assignments keep the contract of orderly evaluations: what the grammar
requires of a node is there when its rule reads it, and the children are placed where the node is. No
exit leaves an expression.
-/
namespace ScriptCore

/-! ## What values fail with

Reading, writing and combining values fails for reasons that have nothing to do with the tree. -/

namespace World

variable {w : World}

theorem getProperty_error {base : Value} {key : String} {cause : Cause}
    (h : w.getProperty base key = .error cause) : cause.isStructural = false := by
  unfold getProperty at h
  repeat' (split at h)
  all_goals cases h
  all_goals rfl

theorem iterate_error {value : Value} {cause : Cause} (h : w.iterate value = .error cause) :
    cause.isStructural = false := by
  unfold iterate at h
  split at h <;> cases h
  rfl

theorem hasProperty_error {target : Value} {key : String} {cause : Cause}
    (h : w.hasProperty target key = .error cause) : cause.isStructural = false := by
  unfold hasProperty at h
  split at h <;> cases h
  rfl

theorem unary_error {op : String} {operand : Value} {cause : Cause}
    (h : w.unary op operand = .error cause) : cause.isStructural = false := by
  unfold unary at h
  split at h <;> cases h
  rfl

theorem binary_error {op : String} {left right : Value} {cause : Cause}
    (h : w.binary op left right = .error cause) : cause.isStructural = false := by
  unfold binary at h
  split at h
  case h_21 =>
    cases hhas : w.hasProperty right (w.key left) with
    | ok found => rw [hhas] at h; cases h
    | error cause' =>
      rw [hhas] at h
      cases h
      exact hasProperty_error hhas
  all_goals cases h
  rfl

theorem deleteProperty_error {base : Value} {key : String} {cause : Cause}
    (h : (w.deleteProperty base key).1 = .error cause) : cause.isStructural = false := by
  unfold deleteProperty at h
  repeat' (split at h)
  all_goals cases h
  all_goals rfl

theorem writeOf_refused {base value : Value} {key : String} {maxLength : Nat} {cause : Cause}
    (h : w.writeOf base key value maxLength = .refused cause) : cause.isStructural = false := by
  unfold writeOf at h
  repeat' (split at h)
  all_goals cases h
  all_goals rfl

theorem setProperty?_error {base value : Value} {key : String} {maxLength : Nat} {cause : Cause}
    {w' : World} (h : w.setProperty? base key value maxLength = some (.error cause, w')) :
    cause.isStructural = false := by
  obtain ⟨_, hwrite, hresult⟩ | hresult := w.setProperty?_cases h
  · cases hresult
    exact writeOf_refused hwrite
  · cases hresult

end World

namespace Context

theorem copyProperties_error {w : World} {source : Value} {fields : Dict Value} {cause : Cause}
    (h : copyProperties w source fields = .error cause) : cause.isStructural = false := by
  unfold copyProperties at h
  generalize w.enumerableKeys source = keys at h
  induction keys generalizing fields with
  | nil => cases h
  | cons key rest ih =>
    rw [List.foldlM_cons] at h
    cases hvalue : w.getProperty source key with
    | ok value =>
      rw [hvalue] at h
      exact ih h
    | error cause' =>
      rw [hvalue] at h
      cases h
      exact World.getProperty_error hvalue

end Context

namespace Context

open Eval

variable {host : Host} {c : Context} {n : NodeId} {s : ScopeId} {j : Jumps} {slots : List Slot}

/-! ## Places and patterns -/

theorem behaves_propertyKey (ha : c.Sound) {field : String}
    (hholds : c.tree.Holds n slots fun k child => c.At k child s)
    (hmem : ⟨.one, field, .expression⟩ ∈ slots) : (c.propertyKey n field s).Behaves host j := by
  refine Keeps.bind (keeps_require hholds hmem) fun key hkey => ?_
  split
  · exact Eval.behaves_pure _
  · exact (behaves_eval ha hkey).bind fun _ => behaves_reads _

/-- What a member expression holds. -/
theorem holds_member (ha : c.Sound) (h : c.At .expression n s)
    (htag : c.tree.tag n = "MemberExpression") :
    c.tree.Holds n Grammar.memberSlots fun k child => c.At k child s := by
  obtain ⟨slots, hslots, hholds⟩ := h.holds ha (by rw [htag]; rfl)
  simp only [Grammar.production, Grammar.expressionSlots, htag] at hslots
  cases hslots
  exact hholds

theorem behaves_place (ha : c.Sound) (h : c.At .target n s) : (c.place n s).Behaves host j := by
  obtain ⟨htag, hexpression⟩ := h.derives.expression_of_target
  have hat : c.At .expression n s := ⟨hexpression, h.placed⟩
  rw [place]
  split
  · exact Eval.behaves_pure _
  next hname =>
    rcases htag with htag | htag
    · obtain ⟨name, hsome⟩ := hexpression.identifierName? htag (Or.inl rfl)
      rw [hname] at hsome
      cases hsome
    · have hholds := holds_member ha hat htag
      rw [if_pos (by simp [Tree.is, htag])]
      refine Keeps.bind (keeps_require hholds (by simp [Grammar.memberSlots])) fun object hobject =>
        (behaves_eval ha hobject).bind fun base => ?_
      exact (behaves_propertyKey ha hholds (by simp [Grammar.memberSlots])).bind fun _ =>
        Eval.behaves_pure _

theorem behaves_readPlace (place : Place) (scope : ScopeId) :
    (readPlace place scope).Behaves host j := by
  cases place with
  | binding name => exact behaves_reads _
  | property base key => exact behaves_checks fun _ _ h => World.getProperty_error h

theorem behaves_writePlace (place : Place) (value : Value) (scope : ScopeId) :
    (c.writePlace place value scope).Behaves host j := by
  cases place with
  | binding name => exact behaves_scopes _
  | property base key =>
    exact behaves_risks (fun w _ hr => (w.setProperty?_frame hr).2) fun _ _ _ h =>
      World.setProperty?_error h

theorem behaves_bindName (name : String) (value : Value) (scope : ScopeId) (binding : Binding) :
    (bindName name value scope binding).Behaves host j := by
  cases binding <;> exact behaves_scopes _

theorem behaves_bindElements (ha : c.Sound) {binding : Binding} {elements : List (Option NodeId)}
    (h : ∀ element, some element ∈ elements → c.At (.patternElement binding.declares) element s)
    (items : List Value) : (c.bindElements items s binding elements).Behaves host j := by
  induction elements generalizing items with
  | nil => exact Eval.behaves_pure _
  | cons element rest ih =>
    have hrest := ih fun element hmem => h element (List.mem_cons_of_mem _ hmem)
    cases element with
    | none => exact hrest _
    | some element =>
      have helement := h element List.mem_cons_self
      rw [bindElements]
      split
      next htag =>
        obtain ⟨slots, hslots, hholds⟩ := helement.holds ha (by rw [eq_of_beq htag]; rfl)
        simp only [Grammar.production, htag, if_true] at hslots
        cases hslots
        refine Keeps.bind (keeps_require hholds List.mem_cons_self) fun argument hargument => ?_
        exact (behaves_makes fun _ => rfl).bind fun gathered => behaves_bind ha hargument gathered
      next htag =>
        have hpattern : c.At (.pattern binding.declares) element s :=
          ⟨helement.derives.pattern_of_element htag, helement.placed⟩
        exact (behaves_bind ha hpattern _).bind fun _ => hrest _

theorem behaves_bindProperties (ha : c.Sound) {binding : Binding} {properties : List NodeId}
    (h : ∀ property ∈ properties, c.At (.patternMember binding.declares) property s) (value : Value)
    (used : List String) : (c.bindProperties value s binding used properties).Behaves host j := by
  induction properties generalizing used with
  | nil => exact Eval.behaves_pure _
  | cons property rest ih =>
    have hrest := ih fun property hmem => h property (List.mem_cons_of_mem _ hmem)
    have hproperty := h property List.mem_cons_self
    rw [bindProperties]
    split
    next htag =>
      obtain ⟨slots, hslots, hholds⟩ := hproperty.holds ha (by rw [eq_of_beq htag]; rfl)
      simp only [Grammar.production, htag, if_true] at hslots
      cases hslots
      refine Keeps.bind (keeps_require hholds List.mem_cons_self) fun argument hargument => ?_
      exact (behaves_makes fun _ => rfl).bind fun gathered =>
        (behaves_bind ha hargument gathered).bind fun _ => hrest _
    next hnotRest =>
      have htag := hproperty.derives.tag_of_member hnotRest
      obtain ⟨slots, hslots, hholds⟩ := hproperty.holds ha (by rw [htag]; rfl)
      simp only [Grammar.production, Tree.is, htag, beq_self_eq_true, if_true] at hslots
      cases hslots
      refine (behaves_propertyKey ha hholds (by simp)).bind fun key =>
        Keeps.bind (keeps_require hholds (k := .pattern binding.declares) (by simp))
          fun target htarget => ?_
      exact (behaves_checks fun _ _ h => World.getProperty_error h).bind fun item =>
        (behaves_bind ha htarget item).bind fun _ => hrest _

theorem behaves_bindPattern (ha : c.Sound) {binding : Binding}
    (h : c.At (.pattern binding.declares) n s) (value : Value) :
    (c.bindPattern n value s binding).Behaves host j := by
  unfold bindPattern
  split
  next binding _ _ htag =>
    obtain ⟨name, hname⟩ := h.derives.identifierName? htag (Or.inr ⟨_, rfl⟩)
    rw [hname]
    exact behaves_bindName name value s binding
  next htag =>
    have htarget : c.tree.Derives .target n := by
      refine h.derives.of_production ?_
      simp [Grammar.production, Grammar.expressionSlots, Grammar.patternSlots, Tree.is, htag,
        Binding.declares]
    exact (behaves_place ha ⟨htarget, h.placed⟩).bind fun place => behaves_writePlace place value s
  next binding _ _ htag =>
    obtain ⟨slots, hslots, hholds⟩ := h.holds ha (by rw [htag]; rfl)
    simp only [Grammar.production, Grammar.patternSlots, htag] at hslots
    cases hslots
    refine Keeps.bind (keeps_require hholds List.mem_cons_self) fun left hleft => ?_
    split
    · refine Keeps.bind (keeps_require hholds (k := .expression) (by simp)) fun right hright => ?_
      exact (behaves_eval ha hright).bind fun value => behaves_bind ha hleft value
    · exact behaves_bind ha hleft value
  next binding _ _ htag =>
    obtain ⟨slots, hslots, hholds⟩ := h.holds ha (by rw [htag]; rfl)
    simp only [Grammar.production, Grammar.patternSlots, htag] at hslots
    cases hslots
    exact behaves_bindProperties ha (fun property hp => hholds.present List.mem_cons_self hp) value []
  next binding _ _ htag =>
    obtain ⟨slots, hslots, hholds⟩ := h.holds ha (by rw [htag]; rfl)
    simp only [Grammar.production, Grammar.patternSlots, htag] at hslots
    cases hslots
    exact (behaves_checks fun _ _ h => World.iterate_error h).bind fun items =>
      behaves_bindElements ha
        (fun element hmem => hholds.present List.mem_cons_self (Tree.mem_present hmem)) items
  next binding _ _ hidentifier hassignment hobject harray hmember =>
    rcases h.derives.tag_of_pattern with htag | htag | htag | htag | ⟨htag, hassign⟩
    · exact (hidentifier htag).elim
    · exact (hassignment htag).elim
    · exact (hobject htag).elim
    · exact (harray htag).elim
    · cases binding with
      | declare target => cases hassign
      | assign => exact absurd rfl (hmember htag)

/-! ## Expressions -/

theorem behaves_identifier (h : c.At .expression n s) (htag : c.tree.tag n = "Identifier") :
    (c.identifier n s).Behaves host j := by
  obtain ⟨name, hname⟩ := h.derives.identifierName? htag (Or.inl rfl)
  rw [identifier, hname]
  exact behaves_reads _

theorem behaves_literal (h : c.At .expression n s) (htag : c.tree.tag n = "Literal") :
    (c.literal n s).Behaves host j := by
  obtain ⟨slots, hslots⟩ := h.derives.exists_production
  have hliteral : Grammar.isLiteral c.tree n = true := by
    simp only [Grammar.production, Grammar.expressionSlots, htag] at hslots
    split at hslots
    next hliteral => exact hliteral
    · cases hslots
  rw [literal]
  split
  · exact behaves_fail rfl
  next hregex =>
    split
    · exact behaves_fail rfl
    next hbigint =>
      have hscalar : Grammar.isScalar (c.tree.field? n "value") = true := by
        simpa only [Grammar.isLiteral, hregex, hbigint, Bool.false_or] using hliteral
      cases hvalue : c.tree.field? n "value" with
      | none =>
        rw [hvalue] at hscalar
        cases hscalar
      | some field =>
        rw [hvalue] at hscalar
        cases field with
        | node child => cases hscalar
        | list items => cases hscalar
        | _ => exact Eval.behaves_pure _

theorem behaves_templateParts (ha : c.Sound) (out : String) (quasis : List (Option NodeId))
    {expressions : List (Option NodeId)}
    (h : ∀ expression, some expression ∈ expressions → c.At .expression expression s) :
    (c.templateParts s out quasis expressions).Behaves host j := by
  induction quasis generalizing out expressions with
  | nil => exact Eval.behaves_pure _
  | cons quasi rest ih =>
    have hrest := fun expression hmem => h expression (List.mem_of_mem_tail hmem)
    rw [templateParts]
    split
    next expression hhead =>
      have hmem : some expression ∈ expressions := by
        rw [Option.join_eq_some_iff] at hhead
        exact List.mem_of_mem_head? hhead
      exact (behaves_eval ha (h expression hmem)).bind fun value => (behaves_reads _).bind fun text =>
        ih _ hrest
    · exact ih _ hrest

theorem behaves_templateLiteral (ha : c.Sound) (h : c.At .expression n s)
    (htag : c.tree.tag n = "TemplateLiteral") : (c.templateLiteral n s).Behaves host j := by
  obtain ⟨slots, hslots, hholds⟩ := h.holds ha (by rw [htag]; rfl)
  simp only [Grammar.production, Grammar.expressionSlots, htag] at hslots
  cases hslots
  exact behaves_templateParts ha "" _ fun expression hmem =>
    hholds.present List.mem_cons_self (Tree.mem_present hmem)

/-- What a spread element in a list of elements or of properties holds. -/
theorem holds_spread (ha : c.Sound) {element : NodeId}
    (h : c.At .element element s ∨ c.At .property element s)
    (htag : c.tree.is element "SpreadElement" = true) :
    c.tree.Holds element [⟨.one, "argument", .expression⟩] fun k child => c.At k child s := by
  rcases h with h | h <;>
  · obtain ⟨slots, hslots, hholds⟩ := h.holds ha (by rw [eq_of_beq htag]; rfl)
    simp only [Grammar.production, htag, if_true] at hslots
    cases hslots
    exact hholds

theorem behaves_spread (ha : c.Sound) {element : NodeId} (h : c.At .element element s)
    (htag : c.tree.is element "SpreadElement" = true) : (c.spread element s).Behaves host j := by
  have hholds := holds_spread ha (Or.inl h) htag
  refine Keeps.bind (keeps_require hholds List.mem_cons_self) fun argument hargument => ?_
  exact (behaves_eval ha hargument).bind fun _ => behaves_checks fun _ _ h => World.iterate_error h

theorem behaves_elements (ha : c.Sound) {elements : List (Option NodeId)}
    (h : ∀ element, some element ∈ elements → c.At .element element s) (acc : Array Value) :
    (c.elements s acc elements).Behaves host j := by
  induction elements generalizing acc with
  | nil => exact Eval.behaves_pure _
  | cons element rest ih =>
    have hrest := ih fun element hmem => h element (List.mem_cons_of_mem _ hmem)
    cases element with
    | none => exact hrest _
    | some element =>
      have helement := h element List.mem_cons_self
      rw [Context.elements]
      split
      next htag => exact (behaves_spread ha helement htag).bind fun values => hrest _
      next htag =>
        have hat : c.At .expression element s :=
          ⟨helement.derives.expression_of_element htag, helement.placed⟩
        exact (behaves_eval ha hat).bind fun value => hrest _

theorem behaves_arguments (ha : c.Sound) {nodes : List NodeId}
    (h : ∀ node ∈ nodes, c.At .element node s) (acc : Array Value) :
    (c.arguments s acc nodes).Behaves host j := by
  induction nodes generalizing acc with
  | nil => exact Eval.behaves_pure _
  | cons argument rest ih =>
    have hrest := ih fun node hmem => h node (List.mem_cons_of_mem _ hmem)
    have hargument := h argument List.mem_cons_self
    rw [Context.arguments]
    split
    next htag => exact (behaves_spread ha hargument htag).bind fun values => hrest _
    next htag =>
      have hat : c.At .expression argument s :=
        ⟨hargument.derives.expression_of_element htag, hargument.placed⟩
      exact (behaves_eval ha hat).bind fun value => hrest _

theorem behaves_properties (ha : c.Sound) {properties : List NodeId}
    (h : ∀ property ∈ properties, c.At .property property s) (fields : Dict Value) :
    (c.properties s fields properties).Behaves host j := by
  induction properties generalizing fields with
  | nil => exact Eval.behaves_pure _
  | cons property rest ih =>
    have hrest := ih fun property hmem => h property (List.mem_cons_of_mem _ hmem)
    have hproperty := h property List.mem_cons_self
    rw [Context.properties]
    split
    next htag =>
      have hholds := holds_spread ha (Or.inr hproperty) htag
      refine Keeps.bind (keeps_require hholds List.mem_cons_self) fun argument hargument => ?_
      exact (behaves_eval ha hargument).bind fun source =>
        (behaves_checks fun _ _ h => copyProperties_error h).bind fun fields => hrest _
    next hspread =>
      split
      · exact (behaves_fail rfl).raisedAt property
      next htag =>
        have htag : c.tree.tag property = "Property" := by simpa [Tree.is] using htag
        obtain ⟨slots, hslots, hholds⟩ := hproperty.holds ha (by rw [htag]; rfl)
        simp only [Grammar.production, Tree.is, htag, beq_self_eq_true, if_true] at hslots
        cases hslots
        simp only
        split
        · exact (behaves_fail rfl).raisedAt property
        · refine (behaves_propertyKey ha hholds (by simp)).bind fun key =>
            Keeps.bind (keeps_require hholds (k := .expression) (by simp)) fun value hvalue => ?_
          exact (behaves_evalNamed ha hvalue _).bind fun value => hrest _

theorem behaves_arrayExpression (ha : c.Sound) (h : c.At .expression n s)
    (htag : c.tree.tag n = "ArrayExpression") : (c.arrayExpression n s).Behaves host j := by
  obtain ⟨slots, hslots, hholds⟩ := h.holds ha (by rw [htag]; rfl)
  simp only [Grammar.production, Grammar.expressionSlots, htag] at hslots
  cases hslots
  have helements (element : NodeId) (hmem : some element ∈ c.tree.children n "elements") :
      c.At .element element s := hholds.present List.mem_cons_self (Tree.mem_present hmem)
  exact (behaves_elements ha helements #[]).bind fun items => behaves_makes fun _ => rfl

theorem behaves_objectExpression (ha : c.Sound) (h : c.At .expression n s)
    (htag : c.tree.tag n = "ObjectExpression") : (c.objectExpression n s).Behaves host j := by
  obtain ⟨slots, hslots, hholds⟩ := h.holds ha (by rw [htag]; rfl)
  simp only [Grammar.production, Grammar.expressionSlots, htag] at hslots
  cases hslots
  have hproperties (property : NodeId) (hmem : property ∈ c.tree.present n "properties") :
      c.At .property property s := hholds.present List.mem_cons_self hmem
  exact (behaves_properties ha hproperties ∅).bind fun fields => behaves_makes fun _ => rfl

theorem behaves_functionExpression (ha : c.Sound) (h : c.At .expression n s)
    (htag : c.tree.tag n = "FunctionExpression" ∨ c.tree.tag n = "ArrowFunctionExpression") :
    (c.functionExpression n s).Behaves host j :=
  behaves_createClosure ha (Tree.functionAt_of_expression h.derives htag) none

theorem behaves_memberExpression (ha : c.Sound) (h : c.At .expression n s)
    (htag : c.tree.tag n = "MemberExpression") : (c.memberExpression n s).Behaves host j := by
  have hholds := holds_member ha h htag
  refine Keeps.bind (keeps_require hholds (k := .expression) (by simp [Grammar.memberSlots]))
    fun object hobject => (behaves_eval ha hobject).bind fun base => ?_
  split
  · exact Eval.behaves_pure _
  · exact (behaves_propertyKey ha hholds (by simp [Grammar.memberSlots])).bind fun _ =>
      behaves_checks fun _ _ h => World.getProperty_error h

theorem behaves_chainExpression (ha : c.Sound) (h : c.At .expression n s)
    (htag : c.tree.tag n = "ChainExpression") : (c.chainExpression n s).Behaves host j := by
  obtain ⟨slots, hslots, hholds⟩ := h.holds ha (by rw [htag]; rfl)
  simp only [Grammar.production, Grammar.expressionSlots, htag] at hslots
  cases hslots
  exact Keeps.bind (keeps_require hholds List.mem_cons_self) fun expression hexpression =>
    behaves_eval ha hexpression

theorem behaves_calleeOf (ha : c.Sound) (h : c.At .expression n s) :
    (c.calleeOf n s).Behaves host j := by
  rw [calleeOf]
  split
  next htag =>
    have hholds := holds_member ha h (eq_of_beq htag)
    refine Keeps.bind (keeps_require hholds (k := .expression) (by simp [Grammar.memberSlots]))
      fun object hobject => (behaves_eval ha hobject).bind fun base => ?_
    split
    · exact Eval.behaves_pure _
    · refine (behaves_propertyKey ha hholds (by simp [Grammar.memberSlots])).bind fun key => ?_
      exact ((behaves_checks fun _ _ h => World.getProperty_error h).raisedAt n).bind fun function =>
        Eval.behaves_pure _
  · exact (behaves_eval ha h).bind fun function => Eval.behaves_pure _

theorem behaves_callExpression (ha : c.Sound) (h : c.At .expression n s)
    (htag : c.tree.tag n = "CallExpression") : (c.callExpression n s).Behaves host j := by
  obtain ⟨slots, hslots, hholds⟩ := h.holds ha (by rw [htag]; rfl)
  simp only [Grammar.production, Grammar.expressionSlots, htag] at hslots
  cases hslots
  have harguments (argument : NodeId) (hmem : argument ∈ c.tree.present n "arguments") :
      c.At .element argument s := hholds.present (by simp) hmem
  refine Keeps.bind (keeps_require hholds List.mem_cons_self) fun callee hcallee =>
    (behaves_calleeOf ha hcallee).bind fun found => ?_
  split
  · exact Eval.behaves_pure _
  · split
    · exact Eval.behaves_pure _
    · exact (behaves_arguments ha harguments #[]).bind fun args => behaves_call _ _ args

theorem behaves_delete (ha : c.Sound) (h : c.At .expression n s) :
    (c.delete n s).Behaves host j := by
  rw [delete]
  split
  next htag =>
    have hholds := holds_member ha h (eq_of_beq htag)
    refine Keeps.bind (keeps_require hholds (k := .expression) (by simp [Grammar.memberSlots]))
      fun object hobject => (behaves_eval ha hobject).bind fun base => ?_
    refine (behaves_propertyKey ha hholds (by simp [Grammar.memberSlots])).bind fun key => ?_
    exact (behaves_attempts (fun w => (w.deleteProperty_frame base key).2) fun _ _ h =>
      World.deleteProperty_error h).bind fun gone => Eval.behaves_pure _
  · split
    · exact Eval.behaves_pure _
    · exact (behaves_eval ha h).bind fun _ => Eval.behaves_pure _

theorem behaves_unaryExpression (ha : c.Sound) (h : c.At .expression n s)
    (htag : c.tree.tag n = "UnaryExpression") : (c.unaryExpression n s).Behaves host j := by
  obtain ⟨slots, hslots, hholds⟩ := h.holds ha (by rw [htag]; rfl)
  simp only [Grammar.production, Grammar.expressionSlots, htag] at hslots
  split at hslots
  next hop =>
    cases hslots
    refine (behaves_operator hop).bind fun op =>
      Keeps.bind (keeps_require hholds (k := .expression) (by simp)) fun argument hargument => ?_
    split
    · exact behaves_delete ha hargument
    · exact (behaves_eval ha hargument).bind fun value => behaves_checks fun _ _ h =>
        World.unary_error h
  · cases hslots

/-- What a binary or logical expression holds. -/
theorem holds_operands (ha : c.Sound) (h : c.At .expression n s)
    (htag : c.tree.tag n = "BinaryExpression" ∨ c.tree.tag n = "LogicalExpression") :
    (c.tree.text? n "operator").isSome = true ∧
      c.tree.Holds n Grammar.operandSlots fun k child => c.At k child s := by
  rcases htag with htag | htag <;>
  · obtain ⟨slots, hslots, hholds⟩ := h.holds ha (by rw [htag]; rfl)
    simp only [Grammar.production, Grammar.expressionSlots, htag] at hslots
    split at hslots
    next hop =>
      cases hslots
      exact ⟨hop, hholds⟩
    · cases hslots

theorem behaves_binaryExpression (ha : c.Sound) (h : c.At .expression n s)
    (htag : c.tree.tag n = "BinaryExpression") : (c.binaryExpression n s).Behaves host j := by
  obtain ⟨hop, hholds⟩ := holds_operands ha h (Or.inl htag)
  refine (behaves_operator hop).bind fun op =>
    Keeps.bind (keeps_require hholds (k := .expression) (by simp [Grammar.operandSlots]))
      fun left hleft =>
    Keeps.bind (keeps_require hholds (k := .expression) (by simp [Grammar.operandSlots]))
      fun right hright => ?_
  exact (behaves_eval ha hleft).bind fun _ => (behaves_eval ha hright).bind fun _ =>
    behaves_checks fun _ _ h => World.binary_error h

theorem behaves_logicalExpression (ha : c.Sound) (h : c.At .expression n s)
    (htag : c.tree.tag n = "LogicalExpression") : (c.logicalExpression n s).Behaves host j := by
  obtain ⟨hop, hholds⟩ := holds_operands ha h (Or.inr htag)
  refine (behaves_operator hop).bind fun op =>
    Keeps.bind (keeps_require hholds (k := .expression) (by simp [Grammar.operandSlots]))
      fun left hleft =>
    Keeps.bind (keeps_require hholds (k := .expression) (by simp [Grammar.operandSlots]))
      fun right hright => (behaves_eval ha hleft).bind fun value => ?_
  split
  · exact Eval.behaves_pure _
  · exact behaves_eval ha hright
  · exact behaves_fail rfl

theorem behaves_conditionalExpression (ha : c.Sound) (h : c.At .expression n s)
    (htag : c.tree.tag n = "ConditionalExpression") :
    (c.conditionalExpression n s).Behaves host j := by
  obtain ⟨slots, hslots, hholds⟩ := h.holds ha (by rw [htag]; rfl)
  simp only [Grammar.production, Grammar.expressionSlots, htag] at hslots
  cases hslots
  refine Keeps.bind (keeps_require hholds List.mem_cons_self) fun test htest =>
    (behaves_eval ha htest).bind fun value => ?_
  refine Keeps.bind (keeps_require hholds (k := .expression) ?_) fun branch hbranch =>
    behaves_eval ha hbranch
  split <;> simp

/-- Expressions or statements in order behave as each of them does. -/
theorem behaves_evalEach {nodes : List NodeId}
    (h : ∀ node ∈ nodes, (c.eval node s).Behaves host j) (last : Value) :
    (c.evalEach s last nodes).Behaves host j := by
  induction nodes generalizing last with
  | nil => exact Eval.behaves_pure _
  | cons node rest ih =>
    have hrest := ih fun node hmem => h node (List.mem_cons_of_mem _ hmem)
    exact (h node List.mem_cons_self).bind fun value => hrest value

theorem behaves_sequenceExpression (ha : c.Sound) (h : c.At .expression n s)
    (htag : c.tree.tag n = "SequenceExpression") : (c.sequenceExpression n s).Behaves host j := by
  obtain ⟨slots, hslots, hholds⟩ := h.holds ha (by rw [htag]; rfl)
  simp only [Grammar.production, Grammar.expressionSlots, htag] at hslots
  cases hslots
  exact behaves_evalEach
    (fun expression hmem => behaves_eval ha (hholds.present List.mem_cons_self hmem)) _

/-! ## Assignments -/

theorem behaves_updateExpression (ha : c.Sound) (h : c.At .expression n s)
    (htag : c.tree.tag n = "UpdateExpression") : (c.updateExpression n s).Behaves host j := by
  obtain ⟨slots, hslots, hholds⟩ := h.holds ha (by rw [htag]; rfl)
  simp only [Grammar.production, Grammar.expressionSlots, htag] at hslots
  split at hslots
  next hop =>
    cases hslots
    refine (behaves_operator hop).bind fun op =>
      Keeps.bind (keeps_require hholds List.mem_cons_self) fun argument hargument => ?_
    refine (behaves_place ha hargument).bind fun place => (behaves_readPlace place s).bind fun old =>
      (behaves_reads _).bind fun new => (behaves_writePlace place new s).bind fun _ => ?_
    split
    · exact Eval.behaves_pure _
    · exact behaves_reads _
  · cases hslots

theorem behaves_assign (ha : c.Sound) {left right : NodeId} (hleft : c.At .assignable left s)
    (hright : c.At .expression right s) : (c.assign left right s).Behaves host j := by
  rw [assign]
  split
  next htag =>
    have hpattern : c.At (.pattern Binding.assign.declares) left s :=
      ⟨hleft.derives.pattern_of_assignable htag, hleft.placed⟩
    exact (behaves_eval ha hright).bind fun value => (behaves_bind ha hpattern value).bind fun _ =>
      Eval.behaves_pure _
  next htag =>
    have htarget : c.At .target left s := ⟨hleft.derives.target_of_assignable htag, hleft.placed⟩
    exact (behaves_place ha htarget).bind fun place => (behaves_evalNamed ha hright _).bind fun value =>
      (behaves_writePlace place value s).bind fun _ => Eval.behaves_pure _

theorem behaves_assignBinary (ha : c.Sound) {op : String} (hop : (compoundOperator? op).isSome = true)
    (place : Place) (current : Value) {right : NodeId} (hright : c.At .expression right s) :
    (c.assignBinary op place current right s).Behaves host j := by
  obtain ⟨operator, hoperator⟩ := Option.isSome_iff_exists.mp hop
  rw [assignBinary, hoperator]
  exact (behaves_eval ha hright).bind fun _ =>
    (behaves_checks fun _ _ h => World.binary_error h).bind fun value =>
      (behaves_writePlace place value s).bind fun _ => Eval.behaves_pure _

theorem behaves_assignmentExpression (ha : c.Sound) (h : c.At .expression n s)
    (htag : c.tree.tag n = "AssignmentExpression") : (c.assignmentExpression n s).Behaves host j := by
  obtain ⟨slots, hslots, hholds⟩ := h.holds ha (by rw [htag]; rfl)
  simp only [Grammar.production, Grammar.expressionSlots, htag] at hslots
  split at hslots
  next op hop =>
    refine Keeps.bind (keeps_operator hop) fun found hfound => ?_
    subst hfound
    split at hslots
    next heq =>
      cases hslots
      refine Keeps.bind (keeps_require hholds (k := .assignable) (by simp)) fun left hleft =>
        Keeps.bind (keeps_require hholds (k := .expression) (by simp)) fun right hright => ?_
      rw [if_pos heq]
      exact behaves_assign ha hleft hright
    next hne =>
      split at hslots
      next hcompound =>
        cases hslots
        refine Keeps.bind (keeps_require hholds (k := .target) (by simp)) fun left hleft =>
          Keeps.bind (keeps_require hholds (k := .expression) (by simp)) fun right hright => ?_
        rw [if_neg hne]
        refine (behaves_place ha hleft).bind fun place =>
          (behaves_readPlace place s).bind fun current => ?_
        split
        · exact Eval.behaves_pure _
        · exact (behaves_eval ha hright).bind fun value =>
            (behaves_writePlace place value s).bind fun _ => Eval.behaves_pure _
        · exact behaves_assignBinary ha hcompound place current hright
      · cases hslots
  · cases hslots

end Context

end ScriptCore

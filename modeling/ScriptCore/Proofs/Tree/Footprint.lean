import ScriptCore.Proofs.Tree.Targets

/-!
# What a rule has to do with its node

The rule of a node evaluates nodes and binds patterns, opens blocks, and declares and assigns names: which
ones, is read off the tree. So it is for the binding of a pattern. What is evaluated or bound stands under the
node, and what is bound, declared or assigned to is a target.
-/
namespace ScriptCore.Tree

section Nodes

variable (t : Tree)

/-- The function declarations in a statement list, which are bound when the list starts. -/
def functionsIn (statements : List NodeId) : List NodeId :=
  statements.filter fun statement => t.is statement "FunctionDeclaration"

theorem mem_functionsIn {t : Tree} {statements : List NodeId} {d : NodeId} :
    d ∈ t.functionsIn statements ↔ d ∈ statements ∧ t.is d "FunctionDeclaration" = true :=
  List.mem_filter

/-- The body of the handler of a `try` statement. -/
def handlerBody? (n : NodeId) : Option NodeId :=
  (t.child? n "handler").bind fun handler => t.child? handler "body"

/-- The blocks whose scope the rule of a node asks for (`Context.blockScope`). -/
def openedBlocks (n : NodeId) : List NodeId :=
  match t.tag n with
  | "BlockStatement" | "ForStatement" | "SwitchStatement" => [n]
  | "TryStatement" => (t.handlerBody? n).toList
  | _ => []

/-- The declarators and function declarations whose target the rule of a node asks for
(`Context.declarationTarget`). -/
def declaringNodes (n : NodeId) : List NodeId :=
  match t.tag n with
  | "Program" | "BlockStatement" => t.functionsIn (t.present n "body")
  | "VariableDeclaration" => t.present n "declarations"
  | "ForInStatement" | "ForOfStatement" =>
    match t.child? n "left" with
    | some left => if t.is left "VariableDeclaration" then t.present left "declarations" else []
    | none => []
  | "SwitchStatement" =>
    t.functionsIn ((t.present n "cases").flatMap fun case => t.present case "consequent")
  | "TryStatement" => t.functionsIn ((t.handlerBody? n).toList.flatMap fun body => t.present body "body")
  | _ => []

/-- The declarators in the head of a `for…in` or `for…of`. -/
def headDeclarators (n : NodeId) : List NodeId :=
  (t.child? n "left").toList.flatMap fun left =>
    if t.is left "VariableDeclaration" then t.present left "declarations" else []

/-- The declarators among the declaring nodes. -/
def declarators (n : NodeId) : List NodeId :=
  match t.tag n with
  | "VariableDeclaration" => t.present n "declarations"
  | "ForInStatement" | "ForOfStatement" => t.headDeclarators n
  | _ => []

/-- The statements that the rule of a node runs as a list, after it has bound the functions among them. -/
def listed (p : NodeId) : List NodeId :=
  match t.tag p with
  | "Program" | "BlockStatement" => t.present p "body"
  | "SwitchStatement" => (t.present p "cases").flatMap fun case => t.present case "consequent"
  | "TryStatement" => (t.handlerBody? p).toList.flatMap fun body => t.present body "body"
  | _ => []

/-- The node that an expression assigns to. -/
def assignee? (n : NodeId) : Option NodeId :=
  if t.is n "AssignmentExpression" then t.child? n "left"
  else if t.is n "UpdateExpression" then t.child? n "argument"
  else none

/-! ## Values -/

/-- The children in fields that hold one child each. -/
def inFields (n : NodeId) (keys : List String) : List NodeId := keys.filterMap fun key => t.child? n key

/-- What the place of a member expression is made of; other places are made of nothing. -/
def placeParts (n : NodeId) : List NodeId :=
  if t.is n "MemberExpression" then t.inFields n ["object", "property"] else []

/-- What is evaluated for an element of an array literal or an argument. -/
def itemParts (n : NodeId) : List NodeId :=
  if t.is n "SpreadElement" then t.inFields n ["argument"] else [n]

/-- What is evaluated for a property of an object literal. -/
def propertyParts (n : NodeId) : List NodeId :=
  if t.is n "SpreadElement" then t.inFields n ["argument"] else t.inFields n ["key", "value"]

/-- What is evaluated for a member of an object pattern. -/
def memberKeys (n : NodeId) : List NodeId :=
  if t.is n "RestElement" then [] else t.inFields n ["key"]

/-- What a member of an object pattern binds. -/
def memberPatterns (n : NodeId) : List NodeId :=
  if t.is n "RestElement" then t.inFields n ["argument"] else t.inFields n ["value"]

/-- What an element of an array pattern binds. -/
def elementPatterns (n : NodeId) : List NodeId :=
  if t.is n "RestElement" then t.inFields n ["argument"] else [n]

/-- The nodes that the rule of a node asks for the values of. -/
def evaluated (n : NodeId) : List NodeId :=
  match t.tag n with
  | "TemplateLiteral" | "SequenceExpression" => t.present n "expressions"
  | "ArrayExpression" => (t.present n "elements").flatMap t.itemParts
  | "ObjectExpression" => (t.present n "properties").flatMap t.propertyParts
  | "MemberExpression" => t.placeParts n
  | "ChainExpression" | "ExpressionStatement" => t.inFields n ["expression"]
  | "CallExpression" =>
    ((t.inFields n ["callee"]).flatMap fun callee => callee :: t.placeParts callee) ++
      (t.present n "arguments").flatMap t.itemParts
  | "UnaryExpression" => (t.inFields n ["argument"]).flatMap fun argument => argument :: t.placeParts argument
  | "UpdateExpression" => (t.inFields n ["argument"]).flatMap t.placeParts
  | "BinaryExpression" | "LogicalExpression" => t.inFields n ["left", "right"]
  | "AssignmentExpression" => (t.inFields n ["left"]).flatMap t.placeParts ++ t.inFields n ["right"]
  | "ConditionalExpression" | "IfStatement" => t.inFields n ["test", "consequent", "alternate"]
  | "Program" | "BlockStatement" => t.listed n
  | "VariableDeclaration" => (t.present n "declarations").flatMap fun d => t.inFields d ["init"]
  | "ForStatement" => t.inFields n ["init", "test", "body", "update"]
  | "ForInStatement" | "ForOfStatement" => t.inFields n ["right", "body"]
  | "WhileStatement" | "DoWhileStatement" => t.inFields n ["test", "body"]
  | "SwitchStatement" => t.inFields n ["discriminant"] ++
    ((t.present n "cases").flatMap fun case => t.inFields case ["test"]) ++ t.listed n
  | "ReturnStatement" | "ThrowStatement" => t.inFields n ["argument"]
  | "TryStatement" => t.inFields n ["block", "finalizer"] ++ t.listed n
  | _ => []

/-- The nodes that the binding of a pattern asks for the values of. -/
def patternValues (p : NodeId) : List NodeId :=
  match t.tag p with
  | "MemberExpression" => t.placeParts p
  | "AssignmentPattern" => t.inFields p ["right"]
  | "ObjectPattern" => (t.present p "properties").flatMap t.memberKeys
  | _ => []

/-- The patterns that a pattern binds in its turn. -/
def subpatterns (p : NodeId) : List NodeId :=
  match t.tag p with
  | "AssignmentPattern" => t.inFields p ["left"]
  | "ObjectPattern" => (t.present p "properties").flatMap t.memberPatterns
  | "ArrayPattern" => (t.present p "elements").flatMap t.elementPatterns
  | _ => []

end Nodes

variable {t : Tree} {n m d p q : NodeId} {names : List String}

theorem mem_inFields {keys : List String} : m ∈ t.inFields n keys ↔ ∃ key ∈ keys, t.child? n key = some m :=
  List.mem_filterMap

theorem mem_headDeclarators : d ∈ t.headDeclarators n ↔ ∃ left, t.child? n "left" = some left ∧
    t.is left "VariableDeclaration" = true ∧ d ∈ t.present left "declarations" := by
  simp [headDeclarators]

theorem declaringNodes_eq (t : Tree) (n : NodeId) :
    t.declaringNodes n = t.declarators n ++ t.functionsIn (t.listed n) := by
  unfold declaringNodes declarators listed headDeclarators
  split
  all_goals cases t.child? n "left" <;> simp [*, functionsIn]

/-- The declarations that the rule of a node carries out, with the names of each. -/
inductive Declares (t : Tree) (n : NodeId) : NodeId → List String → Prop
  | declarator {d id : NodeId} (hd : d ∈ t.declarators n) (hid : t.child? d "id" = some id) :
    Declares t n d (t.bindingNames id)
  | function {d : NodeId} (hd : d ∈ t.functionsIn (t.listed n)) :
    Declares t n d ((t.child? d "id").bind t.identifierName?).toList

/-- The body of a `try` statement's handler, with the names of the handler's parameter. -/
def Catches (t : Tree) (n body : NodeId) (names : List String) : Prop :=
  t.tag n = "TryStatement" ∧ ∃ clause param, t.child? n "handler" = some clause ∧
    t.child? clause "body" = some body ∧ t.child? clause "param" = some param ∧ names = t.bindingNames param

/-- The patterns that the rule of a node binds, and whether it declares their names. -/
inductive Binds (t : Tree) (n : NodeId) : NodeId → Bool → Prop
  | declarator {d id : NodeId} (hd : d ∈ t.declarators n) (hid : t.child? d "id" = some id) : Binds t n id true
  | parameter {clause param : NodeId} (htag : t.tag n = "TryStatement")
    (hclause : t.child? n "handler" = some clause) (hparam : t.child? clause "param" = some param) :
    Binds t n param true
  | assigned {left : NodeId} (htag : t.tag n = "AssignmentExpression") (hleft : t.child? n "left" = some left)
    (hkind : (t.is left "ObjectPattern" || t.is left "ArrayPattern") = true) : Binds t n left false
  | iterated {left : NodeId} (htag : t.tag n = "ForInStatement" ∨ t.tag n = "ForOfStatement")
    (hleft : t.child? n "left" = some left) (hkind : ¬ t.is left "VariableDeclaration" = true) :
    Binds t n left false

theorem Declares.mem (h : t.Declares n d names) : d ∈ t.declaringNodes n := by
  rw [declaringNodes_eq, List.mem_append]
  cases h with
  | declarator hd hid => exact Or.inl hd
  | function hd => exact Or.inr hd

/-! ## All of it stands under the node -/

theorem under_of_inFields {keys : List String} (h : m ∈ t.inFields n keys) : t.Under n m := by
  obtain ⟨key, -, hchild⟩ := mem_inFields.mp h
  exact .single (held_of_child? hchild)

theorem under_of_placeParts (h : m ∈ t.placeParts n) : t.Under n m := by
  unfold placeParts at h
  split at h
  · exact under_of_inFields h
  · cases h

theorem under_of_propertyParts (h : m ∈ t.propertyParts n) : t.Under n m := by
  unfold propertyParts at h
  split at h
  · exact under_of_inFields h
  · exact under_of_inFields h

theorem under_of_itemParts (h : m ∈ t.itemParts d) (hd : t.Under n d) : t.Under n m := by
  unfold itemParts at h
  split at h
  · exact hd.trans (under_of_inFields h)
  · exact List.mem_singleton.mp h ▸ hd

theorem under_of_listed (h : m ∈ t.listed n) : t.Under n m := by
  unfold listed at h
  split at h
  · exact .single (held_of_present h)
  · exact .single (held_of_present h)
  · obtain ⟨case, hcase, hm⟩ := List.mem_flatMap.mp h
    exact .head (held_of_present hcase) (.single (held_of_present hm))
  · obtain ⟨body, hbody, hm⟩ := List.mem_flatMap.mp h
    obtain ⟨handler, hhandler, hchild⟩ := Option.bind_eq_some_iff.mp (Option.mem_toList.mp hbody)
    exact .head (held_of_child? hhandler) (.head (held_of_child? hchild) (.single (held_of_present hm)))
  · cases h

/-- A rule asks for the values of nodes under its own. -/
theorem under_of_evaluated (h : m ∈ t.evaluated n) : t.Under n m := by
  have hpresent {key : String} {parts : NodeId → List NodeId} (h : m ∈ (t.present n key).flatMap parts)
      (hparts : ∀ {d}, t.Under n d → m ∈ parts d → t.Under n m) : t.Under n m := by
    obtain ⟨d, hd, hm⟩ := List.mem_flatMap.mp h
    exact hparts (.single (held_of_present hd)) hm
  have hoperand {key : String}
      (h : m ∈ (t.inFields n [key]).flatMap fun operand => operand :: t.placeParts operand) :
      t.Under n m := by
    obtain ⟨operand, hd, hm⟩ := List.mem_flatMap.mp h
    obtain rfl | hm := List.mem_cons.mp hm
    · exact under_of_inFields hd
    · exact (under_of_inFields hd).trans (under_of_placeParts hm)
  have hplace {key : String} (h : m ∈ (t.inFields n [key]).flatMap t.placeParts) : t.Under n m := by
    obtain ⟨place, hd, hm⟩ := List.mem_flatMap.mp h
    exact (under_of_inFields hd).trans (under_of_placeParts hm)
  unfold evaluated at h
  split at h
  · exact .single (held_of_present h)
  · exact .single (held_of_present h)
  · exact hpresent h fun hd hm => under_of_itemParts hm hd
  · exact hpresent h fun hd hm => hd.trans (under_of_propertyParts hm)
  · exact under_of_placeParts h
  · exact under_of_inFields h
  · exact under_of_inFields h
  · obtain h | h := List.mem_append.mp h
    · exact hoperand h
    · exact hpresent h fun hd hm => under_of_itemParts hm hd
  · exact hoperand h
  · exact hplace h
  · exact under_of_inFields h
  · exact under_of_inFields h
  · obtain h | h := List.mem_append.mp h
    · exact hplace h
    · exact under_of_inFields h
  · exact under_of_inFields h
  · exact under_of_inFields h
  · exact under_of_listed h
  · exact under_of_listed h
  · exact hpresent h fun hd hm => hd.trans (under_of_inFields hm)
  · exact under_of_inFields h
  · exact under_of_inFields h
  · exact under_of_inFields h
  · exact under_of_inFields h
  · exact under_of_inFields h
  · obtain h | h := List.mem_append.mp h
    · obtain h | h := List.mem_append.mp h
      · exact under_of_inFields h
      · exact hpresent h fun hd hm => hd.trans (under_of_inFields hm)
    · exact under_of_listed h
  · exact under_of_inFields h
  · exact under_of_inFields h
  · obtain h | h := List.mem_append.mp h
    · exact under_of_inFields h
    · exact under_of_listed h
  · cases h

theorem under_of_memberKeys (h : m ∈ t.memberKeys d) : t.Under d m := by
  unfold memberKeys at h
  split at h
  · cases h
  · exact under_of_inFields h

theorem under_of_memberPatterns (h : q ∈ t.memberPatterns d) : t.Under d q := by
  unfold memberPatterns at h
  split at h
  · exact under_of_inFields h
  · exact under_of_inFields h

theorem under_of_elementPatterns (h : q ∈ t.elementPatterns d) (hd : t.Under p d) : t.Under p q := by
  unfold elementPatterns at h
  split at h
  · exact hd.trans (under_of_inFields h)
  · exact List.mem_singleton.mp h ▸ hd

theorem under_of_patternValues (h : m ∈ t.patternValues p) : t.Under p m := by
  unfold patternValues at h
  split at h
  · exact under_of_placeParts h
  · exact under_of_inFields h
  · obtain ⟨member, hmember, hm⟩ := List.mem_flatMap.mp h
    exact .head (held_of_present hmember) (under_of_memberKeys hm)
  · cases h

theorem under_of_subpatterns (h : q ∈ t.subpatterns p) : t.Under p q := by
  unfold subpatterns at h
  split at h
  · exact under_of_inFields h
  · obtain ⟨member, hmember, hq⟩ := List.mem_flatMap.mp h
    exact .head (held_of_present hmember) (under_of_memberPatterns hq)
  · obtain ⟨element, helement, hq⟩ := List.mem_flatMap.mp h
    exact under_of_elementPatterns hq (.single (held_of_present helement))
  · cases h

theorem under_of_declarators (h : d ∈ t.declarators n) : t.Under n d := by
  have hhead (h : d ∈ t.headDeclarators n) : t.Under n d := by
    obtain ⟨left, hleft, -, hd⟩ := mem_headDeclarators.mp h
    exact .head (held_of_child? hleft) (.single (held_of_present hd))
  unfold declarators at h
  split at h
  · exact .single (held_of_present h)
  · exact hhead h
  · exact hhead h
  · cases h

theorem Binds.under {declares : Bool} (h : t.Binds n p declares) : t.Under n p := by
  cases h with
  | declarator hd hid => exact (under_of_declarators hd).tail (held_of_child? hid)
  | parameter htag hclause hparam => exact .head (held_of_child? hclause) (.single (held_of_child? hparam))
  | assigned htag hleft hkind => exact .single (held_of_child? hleft)
  | iterated htag hleft hkind => exact .single (held_of_child? hleft)

/-! ## All that is bound is a target -/

theorem isTarget_of_subpatterns (h : q ∈ t.subpatterns p) : t.IsTarget q := by
  have hrest {rest : NodeId} (htag : t.is rest "RestElement" = true) (hq : q ∈ t.inFields rest ["argument"]) :
      t.IsTarget q := by
    refine ⟨rest, ?_⟩
    simpa [targets, eq_of_beq htag, mem_inFields] using hq
  unfold subpatterns at h
  split at h
  next htag =>
    refine ⟨p, ?_⟩
    simpa [targets, htag, mem_inFields] using h
  next htag =>
    obtain ⟨member, hmember, hq⟩ := List.mem_flatMap.mp h
    rw [memberPatterns] at hq
    split at hq
    next hkind => exact hrest hkind hq
    · refine ⟨p, ?_⟩
      simp only [targets, htag]
      have hvalue : t.child? member "value" = some q := by simpa [mem_inFields] using hq
      exact List.mem_flatMap.mpr ⟨member, hmember, by simp [hvalue]⟩
  next htag =>
    obtain ⟨element, helement, hq⟩ := List.mem_flatMap.mp h
    rw [elementPatterns] at hq
    split at hq
    next hkind => exact hrest hkind hq
    · obtain rfl := List.mem_singleton.mp hq
      exact ⟨p, by simpa only [targets, htag] using helement⟩
  · cases h

/-- The names of the declarators of a declaration are targets. -/
theorem isTarget_of_declaration {declaration id : NodeId} (htag : t.tag declaration = "VariableDeclaration")
    (hd : d ∈ t.present declaration "declarations") (hid : t.child? d "id" = some id) : t.IsTarget id := by
  refine ⟨declaration, ?_⟩
  simp only [targets, htag]
  exact List.mem_flatMap.mpr ⟨d, hd, by simp [hid]⟩

theorem isTarget_of_declarator {id : NodeId} (hd : d ∈ t.declarators n) (hid : t.child? d "id" = some id) :
    t.IsTarget id := by
  have hhead (hd : d ∈ t.headDeclarators n) : t.IsTarget id := by
    obtain ⟨left, -, htag, hd⟩ := mem_headDeclarators.mp hd
    exact isTarget_of_declaration (eq_of_beq htag) hd hid
  unfold declarators at hd
  split at hd
  next htag => exact isTarget_of_declaration htag hd hid
  · exact hhead hd
  · exact hhead hd
  · cases hd

theorem Binds.isTarget {declares : Bool} (h : t.Binds n p declares) : t.IsTarget p := by
  cases h with
  | declarator hd hid => exact isTarget_of_declarator hd hid
  | parameter htag hclause hparam => exact ⟨n, by simp [targets, htag, hclause, hparam]⟩
  | assigned htag hleft hkind => exact ⟨n, by simp [targets, htag, hleft]⟩
  | iterated htag hleft hkind => exact ⟨n, by obtain htag | htag := htag <;> simp [targets, htag, hleft]⟩

theorem Declares.targetName (h : t.Declares n d names) {name : String} (hname : name ∈ names) :
    t.TargetName name := by
  cases h with
  | declarator hd hid => exact targetName_of_bindingNames (isTarget_of_declarator hd hid) hname
  | function hd =>
    have htag := eq_of_beq (mem_functionsIn.mp hd).2
    obtain ⟨id, hid, hidentifier⟩ := Option.bind_eq_some_iff.mp (Option.mem_toList.mp hname)
    exact targetName_of ⟨d, by simp [targets, htag, hid]⟩ hidentifier

theorem Catches.targetName {body : NodeId} (h : t.Catches n body names) {name : String}
    (hname : name ∈ names) : t.TargetName name := by
  obtain ⟨htag, clause, param, hclause, -, hparam, rfl⟩ := h
  exact targetName_of_bindingNames ⟨n, by simp [targets, htag, hclause, hparam]⟩ hname

theorem isTarget_of_assignee (h : t.assignee? n = some p) : t.IsTarget p := by
  refine ⟨n, ?_⟩
  unfold assignee? at h
  split at h
  next htag => simp [targets, eq_of_beq htag, h]
  · split at h
    next htag => simp [targets, eq_of_beq htag, h]
    · cases h

end ScriptCore.Tree

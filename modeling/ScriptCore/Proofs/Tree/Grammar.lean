import ScriptCore.Eval.Rule
import ScriptCore.Proofs.Tree.Proper

/-!
# The grammar of programs

Which trees are programs, as far as the supported kinds of nodes go. A production says, for a node that
is to be of a certain kind, which children it has to have and of which kinds; a node derives from a kind
if its children derive from theirs (`Tree.Derives`). Kinds carry what their place allows: a statement
knows the exits that something around it receives, a pattern whether it declares names. As in the
language itself, `=` takes a destructuring pattern on its left, while an assignment with an operator, `++`
and `--` take a single target.

Where a node of a kind that the evaluator does not support may stand, nothing is asked of it.
-/
namespace ScriptCore

/-- The exits that something around a statement receives. -/
structure Jumps where
  breaks : Bool
  continues : Bool
  returns : Bool
  deriving DecidableEq, Repr

namespace Jumps

/-- No exits, as in a program. -/
def never : Jumps := ⟨false, false, false⟩

/-- The exits of a function body. -/
def ofFunction : Jumps := ⟨false, false, true⟩

/-- The exits of a loop's body. -/
def inLoop (j : Jumps) : Jumps := { j with breaks := true, continues := true }

/-- The exits of the cases of a switch. -/
def inSwitch (j : Jumps) : Jumps := { j with breaks := true }

end Jumps

/-- What a node is to be in its place. -/
inductive NodeKind where
  | program
  | statement (j : Jumps)
  | block (j : Jumps)
  | switchCase (j : Jumps)
  | catchClause (j : Jumps)
  | declarator
  /-- the first part of a `for`: a declaration or an expression -/
  | forInit
  /-- the left side of `for…in` and `for…of`: a declaration or a pattern -/
  | forLeft
  | expression
  /-- an element of an array literal or an argument: an expression or a spread element -/
  | element
  /-- a property of an object literal or a spread element -/
  | property
  /-- what a single value can be written to: an identifier or a member expression -/
  | target
  /-- the left side of `=`: a target or a destructuring pattern -/
  | assignable
  /-- a pattern; one that declares names has no member expression in it -/
  | pattern (declares : Bool)
  /-- an element of an array pattern or a parameter: a pattern or a rest element -/
  | patternElement (declares : Bool)
  /-- a property of an object pattern or a rest element -/
  | patternMember (declares : Bool)
  /-- the body of an arrow function: a block or an expression -/
  | arrowBody
  deriving DecidableEq, Repr

/-- Whether a binding declares names. -/
def Binding.declares : Binding → Bool
  | .declare _ => true
  | .assign => false

/-- The tag of the kinds that have only one. -/
def NodeKind.tag? : NodeKind → Option String
  | .program => some "Program"
  | .block _ => some "BlockStatement"
  | .switchCase _ => some "SwitchCase"
  | .catchClause _ => some "CatchClause"
  | .declarator => some "VariableDeclarator"
  | _ => none

/-- How many children a field has to hold. -/
inductive Arity where
  | one
  | optional
  | many
  deriving DecidableEq, Repr

/-- A field of a production. -/
structure Slot where
  arity : Arity
  key : String
  kind : NodeKind

namespace Slot

/-- The children that a node has in the field. -/
def children (slot : Slot) (t : Tree) (n : NodeId) : List NodeId :=
  match slot.arity with
  | .one | .optional => (t.child? n slot.key).toList
  | .many => t.present n slot.key

end Slot

/-! ## Productions -/

namespace Grammar

variable (t : Tree) (n : NodeId)

/-- Nodes without a default rule are not supported. -/
def unsupportedSlots : Option (List Slot) :=
  if (RuleTable.default.get? (t.tag n)).isNone then some [] else none

/-- Whether a field holds a scalar. -/
def isScalar : Option Field → Bool
  | some (.str _) | some (.num _) | some (.bool _) | some .null => true
  | _ => false

/-- A literal holds a scalar, unless it is one of the kinds that are not supported. -/
def isLiteral : Bool :=
  (t.field? n "regex.pattern").isSome || (t.field? n "bigint").isSome ||
    isScalar (t.field? n "value")

def memberSlots : List Slot := [⟨.one, "object", .expression⟩, ⟨.one, "property", .expression⟩]

def functionSlots (body : NodeKind) : List Slot :=
  [⟨.many, "params", .patternElement true⟩, ⟨.one, "body", body⟩]

def operandSlots : List Slot := [⟨.one, "left", .expression⟩, ⟨.one, "right", .expression⟩]

def expressionSlots : Option (List Slot) :=
  match t.tag n with
  | "Identifier" => if (t.text? n "name").isSome then some [] else none
  | "Literal" => if isLiteral t n then some [] else none
  | "ThisExpression" => some []
  | "TemplateLiteral" => some [⟨.many, "expressions", .expression⟩]
  | "ArrayExpression" => some [⟨.many, "elements", .element⟩]
  | "ObjectExpression" => some [⟨.many, "properties", .property⟩]
  | "FunctionExpression" => some (functionSlots (.block .ofFunction))
  | "ArrowFunctionExpression" => some (functionSlots .arrowBody)
  | "MemberExpression" => some memberSlots
  | "ChainExpression" => some [⟨.one, "expression", .expression⟩]
  | "CallExpression" => some [⟨.one, "callee", .expression⟩, ⟨.many, "arguments", .element⟩]
  | "UnaryExpression" =>
    if (t.text? n "operator").isSome then some [⟨.one, "argument", .expression⟩] else none
  | "UpdateExpression" =>
    if (t.text? n "operator").isSome then some [⟨.one, "argument", .target⟩] else none
  | "BinaryExpression" | "LogicalExpression" =>
    if (t.text? n "operator").isSome then some operandSlots else none
  | "AssignmentExpression" =>
    match t.text? n "operator" with
    | some op =>
      if op = "=" then some [⟨.one, "left", .assignable⟩, ⟨.one, "right", .expression⟩]
      else if (Context.compoundOperator? op).isSome then
        some [⟨.one, "left", .target⟩, ⟨.one, "right", .expression⟩]
      else none
    | none => none
  | "ConditionalExpression" =>
    some [⟨.one, "test", .expression⟩, ⟨.one, "consequent", .expression⟩,
      ⟨.one, "alternate", .expression⟩]
  | "SequenceExpression" => some [⟨.many, "expressions", .expression⟩]
  | _ => unsupportedSlots t n

def patternSlots (declares : Bool) : Option (List Slot) :=
  match t.tag n with
  | "Identifier" => if (t.text? n "name").isSome then some [] else none
  | "MemberExpression" => if declares then none else some memberSlots
  | "AssignmentPattern" => some [⟨.one, "left", .pattern declares⟩, ⟨.one, "right", .expression⟩]
  | "ObjectPattern" => some [⟨.many, "properties", .patternMember declares⟩]
  | "ArrayPattern" => some [⟨.many, "elements", .patternElement declares⟩]
  | _ => none

def statementSlots (j : Jumps) : Option (List Slot) :=
  match t.tag n with
  | "BlockStatement" => some [⟨.many, "body", .statement j⟩]
  | "ExpressionStatement" => some [⟨.one, "expression", .expression⟩]
  | "EmptyStatement" | "DebuggerStatement" | "ImportDeclaration" => some []
  | "FunctionDeclaration" => some (functionSlots (.block .ofFunction))
  | "VariableDeclaration" => some [⟨.many, "declarations", .declarator⟩]
  | "IfStatement" =>
    some [⟨.one, "test", .expression⟩, ⟨.one, "consequent", .statement j⟩,
      ⟨.optional, "alternate", .statement j⟩]
  | "ForStatement" =>
    some [⟨.optional, "init", .forInit⟩, ⟨.optional, "test", .expression⟩,
      ⟨.optional, "update", .expression⟩, ⟨.one, "body", .statement j.inLoop⟩]
  | "ForInStatement" | "ForOfStatement" =>
    some [⟨.one, "left", .forLeft⟩, ⟨.one, "right", .expression⟩,
      ⟨.one, "body", .statement j.inLoop⟩]
  | "WhileStatement" | "DoWhileStatement" =>
    some [⟨.one, "test", .expression⟩, ⟨.one, "body", .statement j.inLoop⟩]
  | "SwitchStatement" =>
    some [⟨.one, "discriminant", .expression⟩, ⟨.many, "cases", .switchCase j.inSwitch⟩]
  | "BreakStatement" => if (t.child? n "label").isSome || j.breaks then some [] else none
  | "ContinueStatement" => if (t.child? n "label").isSome || j.continues then some [] else none
  | "ReturnStatement" => if j.returns then some [⟨.optional, "argument", .expression⟩] else none
  | "ThrowStatement" => some [⟨.one, "argument", .expression⟩]
  | "TryStatement" =>
    some [⟨.one, "block", .block j⟩, ⟨.optional, "handler", .catchClause j⟩,
      ⟨.optional, "finalizer", .block j⟩]
  | _ => unsupportedSlots t n

/-- The fields that a node has to have in its place; none if it cannot stand there. -/
def production : NodeKind → Option (List Slot)
  | .program => if t.is n "Program" then some [⟨.many, "body", .statement .never⟩] else none
  | .statement j => statementSlots t n j
  | .block j => if t.is n "BlockStatement" then statementSlots t n j else none
  | .switchCase j =>
    if t.is n "SwitchCase" then
      some [⟨.optional, "test", .expression⟩, ⟨.many, "consequent", .statement j⟩]
    else none
  | .catchClause j =>
    if t.is n "CatchClause" then some [⟨.optional, "param", .pattern true⟩, ⟨.one, "body", .block j⟩]
    else none
  | .declarator =>
    if t.is n "VariableDeclarator" then
      some [⟨.one, "id", .pattern true⟩, ⟨.optional, "init", .expression⟩]
    else none
  | .forInit =>
    if t.is n "VariableDeclaration" then statementSlots t n .never else expressionSlots t n
  | .forLeft =>
    if t.is n "VariableDeclaration" then some [⟨.many, "declarations", .declarator⟩]
    else patternSlots t n false
  | .expression => expressionSlots t n
  | .element =>
    if t.is n "SpreadElement" then some [⟨.one, "argument", .expression⟩] else expressionSlots t n
  | .property =>
    if t.is n "SpreadElement" then some [⟨.one, "argument", .expression⟩]
    else if t.is n "Property" then some [⟨.one, "key", .expression⟩, ⟨.one, "value", .expression⟩]
    else none
  | .target =>
    if t.is n "Identifier" || t.is n "MemberExpression" then expressionSlots t n else none
  | .assignable =>
    if t.is n "ObjectPattern" || t.is n "ArrayPattern" then patternSlots t n false
    else if t.is n "Identifier" || t.is n "MemberExpression" then expressionSlots t n
    else none
  | .pattern declares => patternSlots t n declares
  | .patternElement declares =>
    if t.is n "RestElement" then some [⟨.one, "argument", .pattern declares⟩]
    else patternSlots t n declares
  | .patternMember declares =>
    if t.is n "RestElement" then some [⟨.one, "argument", .pattern declares⟩]
    else if t.is n "Property" then
      some [⟨.one, "key", .expression⟩, ⟨.one, "value", .pattern declares⟩]
    else none
  | .arrowBody =>
    if t.is n "BlockStatement" then statementSlots t n .ofFunction else expressionSlots t n

end Grammar

namespace Tree

/-- A node derives from a kind: there is a production for it, the children that this requires are there,
and all children in its fields derive from their kinds. -/
inductive Derives (t : Tree) : NodeKind → NodeId → Prop
  | node {k : NodeKind} {n : NodeId} (slots : List Slot) (hslots : Grammar.production t n k = some slots)
    (required : ∀ slot ∈ slots, slot.arity = .one → (t.child? n slot.key).isSome)
    (children : ∀ slot ∈ slots, ∀ child ∈ slot.children t n, Derives t slot.kind child) :
    Derives t k n

/-- A tree that is a program. -/
def Grammatical (t : Tree) : Prop := t.Derives .program t.root

/-- Whether a node derives from a kind, decided down to the given number of levels. -/
def derivesWithin (t : Tree) : Nat → NodeKind → NodeId → Bool
  | 0, _, _ => false
  | levels + 1, k, n =>
    match Grammar.production t n k with
    | some slots => slots.all fun slot =>
      (slot.arity != .one || (t.child? n slot.key).isSome) &&
        (slot.children t n).all fun child => derivesWithin t levels slot.kind child
    | none => false

variable {t : Tree} {k : NodeKind} {n child : NodeId} {slots : List Slot}

theorem derives_of_within {levels : Nat} (h : t.derivesWithin levels k n = true) :
    t.Derives k n := by
  induction levels generalizing k n with
  | zero => cases h
  | succ levels ih =>
    rw [derivesWithin] at h
    split at h
    next slots hslots =>
      rw [List.all_eq_true] at h
      refine .node slots hslots (fun slot hslot hone => ?_) fun slot hslot child hchild => ?_
      · have hfield := (Bool.and_eq_true _ _ ▸ h slot hslot).1
        simpa [hone] using hfield
      · have hbelow := (Bool.and_eq_true _ _ ▸ h slot hslot).2
        exact ih (List.all_eq_true.mp hbelow child hchild)
    · cases h

/-! ## Children -/

/-- A child that a node has in a field that is visited, of a kind that it derives from. -/
structure Has (t : Tree) (n : NodeId) (k : NodeKind) (child : NodeId) : Prop where
  visited : child ∈ t.childNodes n
  derives : t.Derives k child

end Tree

/-- Whether the children in a field of a node are visited. -/
def Tag.visits (tag key : String) : Bool :=
  match visitorKeys? tag with
  | some keys => keys.contains key
  | none => true

namespace Grammar

variable {t : Tree} {n : NodeId} {slots : List Slot}

/-- Whether all fields of a production are visited. -/
def Visits (t : Tree) (n : NodeId) (slots : List Slot) : Prop :=
  (slots.all fun slot => Tag.visits (t.tag n) slot.key) = true

theorem unsupportedSlots_visits (h : unsupportedSlots t n = some slots) : Visits t n slots := by
  unfold unsupportedSlots at h
  split at h
  · cases h
    rfl
  · cases h

theorem expressionSlots_visits (h : expressionSlots t n = some slots) : Visits t n slots := by
  unfold expressionSlots at h
  split at h
  case h_19 => exact unsupportedSlots_visits h
  all_goals
    rename_i htag
    rw [Visits, htag]
    repeat' (split at h)
    all_goals cases h
    all_goals rfl

theorem patternSlots_visits {declares : Bool} (h : patternSlots t n declares = some slots) :
    Visits t n slots := by
  unfold patternSlots at h
  split at h
  case h_6 => cases h
  all_goals
    rename_i htag
    rw [Visits, htag]
    repeat' (split at h)
    all_goals cases h
    all_goals rfl

theorem statementSlots_visits {j : Jumps} (h : statementSlots t n j = some slots) :
    Visits t n slots := by
  unfold statementSlots at h
  split at h
  case h_20 => exact unsupportedSlots_visits h
  all_goals
    rename_i htag
    rw [Visits, htag]
    repeat' (split at h)
    all_goals cases h
    all_goals rfl

/-- The fields that a node needs for a known tag are visited. -/
theorem visits_of_is {tag : String} (h : t.is n tag = true)
    (hslots : (slots.all fun slot => Tag.visits tag slot.key) = true) : Visits t n slots := by
  have htag : t.tag n = tag := by simpa [Tree.is] using h
  rw [Visits, htag]
  exact hslots

/-- The grammar asks only for children that a walk visits. -/
theorem production_visits {k : NodeKind} (h : production t n k = some slots) :
    Visits t n slots := by
  cases k with
  | statement j => exact statementSlots_visits h
  | expression => exact expressionSlots_visits h
  | pattern declares => exact patternSlots_visits h
  | _ =>
    simp only [production] at h
    repeat' (split at h)
    all_goals first
      | exact statementSlots_visits h
      | exact expressionSlots_visits h
      | exact patternSlots_visits h
      | (cases h; exact visits_of_is ‹_› rfl)
      | cases h

end Grammar

namespace Tree

variable {t : Tree} {k k' : NodeKind} {n child : NodeId} {slots : List Slot}

theorem mem_childNodes_of_field {key : String} {field : Field} (hvisits : Tag.visits (t.tag n) key = true)
    (hfield : t.field? n key = some field) (hchild : child ∈ field.children) :
    child ∈ t.childNodes n := by
  simp only [childNodes]
  split
  next keys hkeys =>
    have hkey : key ∈ keys := by
      have htag : Tag.visitorKeys? (t.tag n) = some keys := hkeys
      rw [Tag.visits, htag] at hvisits
      simpa using hvisits
    exact List.mem_flatMap.mpr ⟨field, List.mem_filterMap.mpr ⟨key, hkey, hfield⟩, hchild⟩
  · exact List.mem_flatMap.mpr ⟨_, field?_mem hfield, hchild⟩

theorem field?_of_child? {key : String} (h : t.child? n key = some child) :
    t.field? n key = some (.node child) := by
  rw [child?] at h
  split at h
  next hfield => cases h; exact hfield
  · cases h

theorem field?_of_present {key : String} (h : child ∈ t.present n key) :
    ∃ items, t.field? n key = some (.list items) ∧ child ∈ (Field.list items).children := by
  rw [present, children] at h
  split at h
  next items hfield => exact ⟨items, hfield, h⟩
  · simp at h

theorem mem_present {key : String} (h : some child ∈ t.children n key) : child ∈ t.present n key :=
  List.mem_filterMap.mpr ⟨some child, h, rfl⟩

/-- What a node has in given fields satisfies `P`, and the required children are there. -/
structure Holds (t : Tree) (n : NodeId) (slots : List Slot) (P : NodeKind → NodeId → Prop) : Prop where
  one : ∀ {key k}, ⟨.one, key, k⟩ ∈ slots → ∃ child, t.child? n key = some child ∧ P k child
  optional : ∀ {key k child}, ⟨.optional, key, k⟩ ∈ slots → t.child? n key = some child → P k child
  present : ∀ {key k child}, ⟨.many, key, k⟩ ∈ slots → child ∈ t.present n key → P k child

theorem Holds.mono {P Q : NodeKind → NodeId → Prop} (h : t.Holds n slots P)
    (hPQ : ∀ k child, P k child → Q k child) : t.Holds n slots Q where
  one hmem := by
    obtain ⟨child, hchild, hP⟩ := h.one hmem
    exact ⟨child, hchild, hPQ _ child hP⟩
  optional hmem hchild := hPQ _ _ (h.optional hmem hchild)
  present hmem hchild := hPQ _ _ (h.present hmem hchild)

/-- A required child, once it is known. -/
theorem Holds.required {P : NodeKind → NodeId → Prop} (h : t.Holds n slots P) {key : String}
    (hmem : ⟨.one, key, k⟩ ∈ slots) (hchild : t.child? n key = some child) : P k child := by
  obtain ⟨found, hfound, hP⟩ := h.one hmem
  rw [hchild] at hfound
  cases hfound
  exact hP

/-- A node that derives from a kind has what its production asks for. -/
theorem Derives.holds (h : t.Derives k n) (hslots : Grammar.production t n k = some slots) :
    t.Holds n slots (t.Has n) := by
  obtain ⟨slots', hslots', hrequired, hchildren⟩ := h
  rw [hslots] at hslots'
  cases hslots'
  have hvisits := List.all_eq_true.mp (Grammar.production_visits hslots)
  have hchild {arity key k child} (hmem : (⟨arity, key, k⟩ : Slot) ∈ slots) (harity : arity ≠ .many)
      (hc : t.child? n key = some child) : t.Has n k child := by
    refine ⟨mem_childNodes_of_field (hvisits _ hmem) (field?_of_child? hc) ?_,
      hchildren _ hmem child ?_⟩
    · simp [Field.children]
    · cases arity with
      | one => simp [Slot.children, hc]
      | optional => simp [Slot.children, hc]
      | many => exact absurd rfl harity
  refine ⟨fun hmem => ?_, fun hmem => hchild hmem (by simp), fun hmem hpresent => ?_⟩
  · obtain ⟨child, hc⟩ := Option.isSome_iff_exists.mp (hrequired _ hmem rfl)
    exact ⟨child, hc, hchild hmem (by simp) hc⟩
  · obtain ⟨items, hfield, hin⟩ := field?_of_present hpresent
    exact ⟨mem_childNodes_of_field (hvisits _ hmem) hfield hin, hchildren _ hmem _ hpresent⟩

/-- The statements of a block. -/
theorem Derives.holds_block {j : Jumps} (h : t.Derives (.statement j) n)
    (htag : t.tag n = "BlockStatement") :
    t.Holds n [⟨.many, "body", .statement j⟩] (t.Has n) :=
  h.holds (by simp only [Grammar.production, Grammar.statementSlots, htag])

theorem Derives.exists_production (h : t.Derives k n) :
    ∃ slots, Grammar.production t n k = some slots := by
  obtain ⟨slots, hslots, -, -⟩ := h
  exact ⟨slots, hslots⟩

/-- A node with the same production for two kinds derives from both. -/
theorem Derives.of_production (h : t.Derives k n)
    (heq : Grammar.production t n k' = Grammar.production t n k) : t.Derives k' n := by
  obtain ⟨slots, hslots, hrequired, hchildren⟩ := h
  exact .node slots (heq.trans hslots) hrequired hchildren

/-! ## Kinds within kinds -/

/-- An identifier has a name, wherever it stands. -/
theorem Derives.identifierName? (h : t.Derives k n) (htag : t.tag n = "Identifier")
    (hk : k = .expression ∨ ∃ declares, k = .pattern declares) :
    ∃ name, t.identifierName? n = some name := by
  obtain ⟨slots, hslots⟩ := h.exists_production
  have hname : (t.text? n "name").isSome = true ∧ slots = [] := by
    rcases hk with rfl | ⟨declares, rfl⟩ <;>
      simpa [Grammar.production, Grammar.expressionSlots, Grammar.patternSlots, htag] using hslots
  rw [Tree.identifierName?, if_pos (by simp [Tree.is, htag])]
  exact Option.isSome_iff_exists.mp hname.1

/-- Nodes of such a kind have its tag. -/
theorem Derives.tag_eq (h : t.Derives k n) {tag : String} (hk : k.tag? = some tag) :
    t.tag n = tag := by
  obtain ⟨slots, hslots⟩ := h.exists_production
  cases k with
  | program | block _ | switchCase _ | catchClause _ | declarator =>
    simp only [Grammar.production] at hslots
    cases hk
    split at hslots
    next htag => exact eq_of_beq htag
    · cases hslots
  | _ => cases hk

theorem Derives.statement_of_block {j : Jumps} (h : t.Derives (.block j) n) :
    t.Derives (.statement j) n := by
  have htag := h.tag_eq rfl
  refine h.of_production ?_
  simp only [Grammar.production, Tree.is, htag, beq_self_eq_true, if_true]

/-- The body of a function can be the body of an arrow function. -/
theorem Derives.arrowBody_of_block (h : t.Derives (.block .ofFunction) n) : t.Derives .arrowBody n := by
  have htag := h.tag_eq rfl
  refine h.of_production ?_
  simp [Grammar.production, Tree.is, htag]

theorem Derives.expression_of_element (h : t.Derives .element n)
    (htag : ¬ t.is n "SpreadElement" = true) : t.Derives .expression n :=
  h.of_production (by simp only [Grammar.production, htag, if_false, Bool.false_eq_true])

theorem Derives.expression_of_target (h : t.Derives .target n) :
    (t.tag n = "Identifier" ∨ t.tag n = "MemberExpression") ∧ t.Derives .expression n := by
  obtain ⟨slots, hslots⟩ := h.exists_production
  simp only [Grammar.production] at hslots
  split at hslots
  next htag =>
    refine ⟨by simpa [Tree.is] using htag, h.of_production ?_⟩
    simp only [Grammar.production, htag, if_true]
  · cases hslots

/-- What can be assigned to is a destructuring pattern or a single target. -/
theorem Derives.pattern_of_assignable (h : t.Derives .assignable n)
    (htag : (t.is n "ObjectPattern" || t.is n "ArrayPattern") = true) : t.Derives (.pattern false) n :=
  h.of_production (by simp only [Grammar.production, htag, if_true])

theorem Derives.target_of_assignable (h : t.Derives .assignable n)
    (htag : ¬ (t.is n "ObjectPattern" || t.is n "ArrayPattern") = true) : t.Derives .target n :=
  h.of_production (by simp only [Grammar.production, htag, if_false, Bool.false_eq_true])

theorem Derives.pattern_of_element {declares : Bool} (h : t.Derives (.patternElement declares) n)
    (htag : ¬ t.is n "RestElement" = true) : t.Derives (.pattern declares) n :=
  h.of_production (by simp only [Grammar.production, htag, if_false, Bool.false_eq_true])

/-- A pattern that declares names is no member expression. -/
theorem Derives.tag_of_pattern {declares : Bool} (h : t.Derives (.pattern declares) n) :
    t.tag n = "Identifier" ∨ t.tag n = "AssignmentPattern" ∨ t.tag n = "ObjectPattern" ∨
      t.tag n = "ArrayPattern" ∨ t.tag n = "MemberExpression" ∧ declares = false := by
  obtain ⟨slots, hslots⟩ := h.exists_production
  simp only [Grammar.production, Grammar.patternSlots] at hslots
  split at hslots
  next htag => simp [htag]
  next htag =>
    cases declares with
    | false => simp [htag]
    | true => cases hslots
  next htag => simp [htag]
  next htag => simp [htag]
  next htag => simp [htag]
  · cases hslots

theorem Derives.tag_of_member {declares : Bool} (h : t.Derives (.patternMember declares) n)
    (hrest : ¬ t.is n "RestElement" = true) : t.tag n = "Property" := by
  obtain ⟨slots, hslots⟩ := h.exists_production
  simp only [Grammar.production, hrest, if_false, Bool.false_eq_true] at hslots
  split at hslots
  next htag => exact eq_of_beq htag
  · cases hslots

end Tree

end ScriptCore

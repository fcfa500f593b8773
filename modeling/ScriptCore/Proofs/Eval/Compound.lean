import ScriptCore.Proofs.Eval.Equivalence
import ScriptCore.Proofs.Eval.PatternNames

/-!
# Compound assignments

An assignment `x op= e` has a rule of its own, which reads the name, goes on with the operator, and writes.
The binary, the logical and the plain assignment rules come to the same when they are taken together as
`x = x op e` and as `x op (x = e)`, whatever the right-hand side does (`Evaluator.compound_expands`). There is
one exception: only the plain assignment gives its name to an anonymous function, so `x ??= function () {}`
writes a function without a name.
-/
namespace ScriptCore

/-- A node with an operator between two operands. -/
structure Tree.IsOperation (t : Tree) (tag : String) (n : NodeId) (op : String) (left right : NodeId) : Prop where
  tag : t.tag n = tag
  operator : t.text? n "operator" = some op
  left : t.child? n "left" = some left
  right : t.child? n "right" = some right

namespace Context

variable {c : Context} {ev : Evaluator} {a : Activation} {n target right left : NodeId} {op name : String}
  {s : ScopeId}

/-- The value of a name in a world. -/
def valueOf (s : ScopeId) (name : String) (w : World) : Value := (w.scopes.get? s name).getD .undefined

/-- Write a name and have the written value. -/
def writeName (c : Context) (s : ScopeId) (name : String) (value : Value) : Eval Value := do
  c.writePlace (.binding name) value s
  pure value

theorem tag_of_identifierName? (h : c.tree.identifierName? target = some name) :
    c.tree.tag target = "Identifier" := by
  rw [Tree.identifierName?] at h
  split at h
  next htag => exact beq_iff_eq.mp htag
  · cases h

/-- The place of a name is found with nothing done. -/
theorem place_of_name (h : c.tree.identifierName? target = some name) :
    c.place target s = pure (.binding name) := by
  rw [place, h]

/-- A name is read. -/
theorem identifier_eq (h : c.tree.identifierName? n = some name) :
    c.identifier n s = Eval.reads (valueOf s name) := by
  rw [identifier, h]
  rfl

/-- The operands of an operation are there. -/
theorem operands_eq {tag : String} (h : c.tree.IsOperation tag n op left right)
    (f : String → NodeId → NodeId → Eval Value) :
    (do
      let op ← c.operator n
      let left ← c.require n "left"
      let right ← c.require n "right"
      f op left right) = f op left right := by
  rw [operator, require, require, h.operator, h.left, h.right]
  simp only [pure_bind]

/-- A plain assignment to a name. -/
theorem assignment_eq (h : c.tree.IsOperation "AssignmentExpression" n "=" target right)
    (hname : c.tree.identifierName? target = some name) :
    c.assignmentExpression n s = c.evalNamed right s (some name) >>= c.writeName s name := by
  have htag := tag_of_identifierName? hname
  have hpattern : ¬ (c.tree.is target "ObjectPattern" || c.tree.is target "ArrayPattern") = true := by
    simp [Tree.is, htag]
  refine (operands_eq h _).trans ((if_pos rfl).trans ?_)
  rw [assign, if_neg hpattern, place_of_name hname, pure_bind]
  rfl

/-- A compound assignment to a name reads it first. -/
theorem compound_eq (h : c.tree.IsOperation "AssignmentExpression" n op target right)
    (hname : c.tree.identifierName? target = some name) (hop : op ≠ "=") :
    c.assignmentExpression n s = Eval.reads (valueOf s name) >>= fun current =>
      match (logicalAssignment? op).bind fun op => settledBy? op current with
      | some true => pure current
      | some false => c.eval right s >>= c.writeName s name
      | none => c.assignBinary op (.binding name) current right s := by
  refine (operands_eq h _).trans ((if_neg hop).trans ?_)
  rw [place_of_name hname, pure_bind]
  rfl

/-- A binary operation on the values of its operands. -/
theorem binary_eq (h : c.tree.IsOperation "BinaryExpression" n op left right) :
    c.binaryExpression n s = c.eval left s >>= fun first => c.eval right s >>= fun second =>
      Eval.checks fun w => w.binary op first second := operands_eq h _

theorem logical_eq (h : c.tree.IsOperation "LogicalExpression" n op left right) :
    c.logicalExpression n s = c.eval left s >>= fun value =>
      match settledBy? op value with
      | some true => pure value
      | some false => c.eval right s
      | none => .fail (.custom ("unsupported logical operator '" ++ op ++ "'")) := operands_eq h _

/-- A value gets no name unless its node is an anonymous function. -/
theorem evalNamed_eq (h : c.isAnonymousFunction right = false) (name : Option String) :
    c.evalNamed right s name = c.eval right s := by
  have hneg : ¬ c.isAnonymousFunction right = true := by rw [h]; exact Bool.false_ne_true
  have hpure : c.evalNamed right s name = c.eval right s >>= fun value => pure value := by
    rw [evalNamed]
    refine bind_congr fun value => ?_
    split
    · exact if_neg hneg
    · rfl
  rw [hpure, bind_pure]

end Context

/-! ## Operators -/

namespace Context

variable {op : String} {value : Value}

/-- The operators that their left operand may settle. -/
def isLogical (op : String) : Bool := op == "&&" || op == "||" || op == "??"

theorem compoundOperator?_append (op : String) : compoundOperator? (op ++ "=") = some op := by
  have hreverse : (op ++ "=").toList.reverse = '=' :: op.toList.reverse := by simp
  rw [compoundOperator?, hreverse]
  simp

theorem append_ne_plain (hop : op ≠ "") : op ++ "=" ≠ "=" := fun heq =>
  hop ((String.append_left_inj "=").mp (heq.trans (String.empty_append (s := "=")).symm))

theorem logicalAssignment?_append (hop : isLogical op = true) : logicalAssignment? (op ++ "=") = some op := by
  simp only [isLogical, Bool.or_eq_true, beq_iff_eq] at hop
  obtain (rfl | rfl) | rfl := hop <;> rfl

theorem logicalAssignment?_append_of_not (hop : isLogical op = false) : logicalAssignment? (op ++ "=") = none := by
  have hne (other : String) (hother : isLogical other = true) : op ++ "=" ≠ other ++ "=" := by
    intro heq
    rw [(String.append_left_inj "=").mp heq, hother] at hop
    cases hop
  have hand : op ++ "=" ≠ "&&=" := hne "&&" rfl
  have hor : op ++ "=" ≠ "||=" := hne "||" rfl
  have hnullish : op ++ "=" ≠ "??=" := hne "??" rfl
  unfold logicalAssignment?
  split
  · contradiction
  · contradiction
  · contradiction
  · rfl

theorem exists_settledBy (hop : isLogical op = true) (value : Value) :
    ∃ settled, settledBy? op value = some settled := by
  simp only [isLogical, Bool.or_eq_true, beq_iff_eq] at hop
  obtain (rfl | rfl) | rfl := hop <;> exact ⟨_, rfl⟩

end Context

/-! ## Assignments and their expansions -/

namespace Context

variable {c : Context} {ev : Evaluator} {a : Activation} {n n' b m target target' left right : NodeId}
  {op name : String} {s : ScopeId}

/-- A name is evaluated by reading it. -/
theorem like_name (hrules : ev.rules = RuleTable.default) (hname : a.tree.identifierName? n = some name) :
    ((ev.context a).eval n s).Like ev (Eval.reads (valueOf s name)) := by
  have hrule : ev.rules.get? (a.tree.tag n) = some .identifier := by
    have htag : a.tree.tag n = "Identifier" := tag_of_identifierName? (c := ev.context a) hname
    rw [hrules, htag]
    exact RuleTable.get?_default ("Identifier", _) (by simp)
  exact (Eval.like_eval hrule s).trans (Eval.like_of_eq (identifier_eq hname))

/-- A plain assignment to a name. -/
theorem like_assignment (hrules : ev.rules = RuleTable.default)
    (h : a.tree.IsOperation "AssignmentExpression" n "=" target right)
    (hname : a.tree.identifierName? target = some name) :
    ((ev.context a).eval n s).Like ev
      ((ev.context a).evalNamed right s (some name) >>= (ev.context a).writeName s name) := by
  have hrule : ev.rules.get? (a.tree.tag n) = some .assignmentExpression := by
    rw [hrules, h.tag]
    exact RuleTable.get?_default ("AssignmentExpression", _) (by simp)
  exact (Eval.like_eval hrule s).trans (Eval.like_of_eq (assignment_eq h hname))

/-- A compound assignment to a name. -/
theorem like_compound (hrules : ev.rules = RuleTable.default)
    (h : a.tree.IsOperation "AssignmentExpression" n op target right)
    (hname : a.tree.identifierName? target = some name) (hop : op ≠ "=") :
    ((ev.context a).eval n s).Like ev (Eval.reads (valueOf s name) >>= fun current =>
      match (logicalAssignment? op).bind fun op => settledBy? op current with
      | some true => pure current
      | some false => (ev.context a).eval right s >>= (ev.context a).writeName s name
      | none => (ev.context a).assignBinary op (.binding name) current right s) := by
  have hrule : ev.rules.get? (a.tree.tag n) = some .assignmentExpression := by
    rw [hrules, h.tag]
    exact RuleTable.get?_default ("AssignmentExpression", _) (by simp)
  exact (Eval.like_eval hrule s).trans (Eval.like_of_eq (compound_eq h hname hop))

/-- `x op= e` for a binary operator is like `x = x op e`. -/
theorem like_binary_expansion (hrules : ev.rules = RuleTable.default) (hempty : op ≠ "")
    (hop : isLogical op = false) (h : a.tree.IsOperation "AssignmentExpression" n (op ++ "=") target right)
    (hname : a.tree.identifierName? target = some name)
    (h' : a.tree.IsOperation "AssignmentExpression" n' "=" target' b)
    (hname' : a.tree.identifierName? target' = some name)
    (hb : a.tree.IsOperation "BinaryExpression" b op left right)
    (hleft : a.tree.identifierName? left = some name) :
    ((ev.context a).eval n s).Like ev ((ev.context a).eval n' s) := by
  have hrule : ev.rules.get? (a.tree.tag b) = some .binaryExpression := by
    rw [hrules, hb.tag]
    exact RuleTable.get?_default ("BinaryExpression", _) (by simp)
  have hnamed : (ev.context a).isAnonymousFunction b = false := by
    have htag : (ev.context a).tree.tag b = "BinaryExpression" := hb.tag
    simp [isAnonymousFunction, Tree.is, htag]
  have hcompound : ((ev.context a).eval n s).Like ev (Eval.reads (valueOf s name) >>= fun current =>
      (ev.context a).eval right s >>= fun operand =>
        (Eval.checks fun w => w.binary op current operand) >>= (ev.context a).writeName s name) := by
    refine (like_compound hrules h hname (append_ne_plain hempty)).trans (Eval.like_of_eq ?_)
    refine bind_congr fun current => ?_
    rw [logicalAssignment?_append_of_not hop, assignBinary, compoundOperator?_append]
    rfl
  have hbinary : ((ev.context a).eval b s).Like ev (Eval.reads (valueOf s name) >>= fun current =>
      (ev.context a).eval right s >>= fun operand => Eval.checks fun w => w.binary op current operand) :=
    (Eval.like_eval hrule s).trans ((Eval.like_of_eq (binary_eq hb)).trans
      ((like_name hrules hleft).bind fun _ => .refl ev _))
  refine hcompound.trans (.trans ?_ (like_assignment hrules h' hname').symm)
  rw [evalNamed_eq hnamed]
  refine .trans (Eval.like_of_eq ?_) (hbinary.bind fun _ => .refl ev _).symm
  simp only [bind_assoc]

/-- The right-hand side of a logical assignment is assigned unless the name settles it. -/
theorem like_logical (hrules : ev.rules = RuleTable.default) (hop : isLogical op = true)
    (h : a.tree.IsOperation "AssignmentExpression" n (op ++ "=") target right)
    (hname : a.tree.identifierName? target = some name) {w : World} {settled : Bool}
    (hsettled : settledBy? op (valueOf s name w) = some settled) :
    ((ev.context a).eval n s w).Like ev ((if settled then pure (valueOf s name w)
      else (ev.context a).eval right s >>= (ev.context a).writeName s name : Eval Value) w) := by
  have hempty : op ≠ "" := by
    rintro rfl
    cases hop
  refine (like_compound hrules h hname (append_ne_plain hempty) w).trans ?_
  rw [logicalAssignment?_append hop]
  show ((match (some op).bind fun op => settledBy? op (valueOf s name w) with
      | some true => pure (valueOf s name w)
      | some false => (ev.context a).eval right s >>= (ev.context a).writeName s name
      | none => (ev.context a).assignBinary (op ++ "=") (.binding name) (valueOf s name w) right s : Eval Value) w).Like
    ev _
  rw [Option.bind_some, hsettled]
  cases settled <;> exact .refl ev _

/-- `x op (x = e)` for a logical operator: the same with a plain assignment. -/
theorem like_logical_expansion (hrules : ev.rules = RuleTable.default)
    (h : a.tree.IsOperation "LogicalExpression" n op left m) (hleft : a.tree.identifierName? left = some name)
    (hm : a.tree.IsOperation "AssignmentExpression" m "=" target right)
    (hname : a.tree.identifierName? target = some name) {w : World} {settled : Bool}
    (hsettled : settledBy? op (valueOf s name w) = some settled) :
    ((ev.context a).eval n s w).Like ev ((if settled then pure (valueOf s name w)
      else (ev.context a).evalNamed right s (some name) >>= (ev.context a).writeName s name : Eval Value) w) := by
  have hrule : ev.rules.get? (a.tree.tag n) = some .logicalExpression := by
    rw [hrules, h.tag]
    exact RuleTable.get?_default ("LogicalExpression", _) (by simp)
  have hlogical : ((ev.context a).eval n s).Like ev (Eval.reads (valueOf s name) >>= fun value =>
      match settledBy? op value with
      | some true => pure value
      | some false => (ev.context a).eval m s
      | none => .fail (.custom ("unsupported logical operator '" ++ op ++ "'"))) :=
    (Eval.like_eval hrule s).trans ((Eval.like_of_eq (logical_eq h)).trans
      ((like_name hrules hleft).bind fun _ => .refl ev _))
  refine (hlogical w).trans ?_
  show ((match settledBy? op (valueOf s name w) with
      | some true => pure (valueOf s name w)
      | some false => (ev.context a).eval m s
      | none => .fail (.custom ("unsupported logical operator '" ++ op ++ "'")) : Eval Value) w).Like ev _
  rw [hsettled]
  cases settled with
  | true => exact .refl ev _
  | false => exact like_assignment hrules hm hname w

/-- An anonymous function is evaluated to a fresh closure without a name. -/
theorem like_function (hrules : ev.rules = RuleTable.default)
    (hanonymous : (ev.context a).isAnonymousFunction right = true) :
    ((ev.context a).eval right s).Like ev ((ev.context a).createClosure right s none) := by
  have hrule : ev.rules.get? (a.tree.tag right) = some .functionExpression := by
    simp only [isAnonymousFunction, Bool.and_eq_true, Bool.or_eq_true] at hanonymous
    obtain htag | htag := hanonymous.1
    · rw [hrules, show a.tree.tag right = "FunctionExpression" from beq_iff_eq.mp htag]
      exact RuleTable.get?_default ("FunctionExpression", _) (by simp)
    · rw [hrules, show a.tree.tag right = "ArrowFunctionExpression" from beq_iff_eq.mp htag]
      exact RuleTable.get?_default ("ArrowFunctionExpression", _) (by simp)
  exact Eval.like_eval hrule s

theorem name_of_anonymous (hanonymous : c.isAnonymousFunction right = true) {closure : Closure}
    (h : Closure.ofNode c.tree right s none = .ok closure) : closure.name = none := by
  simp only [isAnonymousFunction, Bool.and_eq_true, Option.isNone_iff_eq_none] at hanonymous
  rw [Closure.ofNode] at h
  simp only [hanonymous.2, Option.bind_none, Option.none_or] at h
  split at h
  · cases h
  · split at h
    · cases h
    · split at h
      · cases h
      · cases h
        rfl

end Context

/-- A name has been given a value that was made. -/
def World.assigned (s : ScopeId) (name : String) (made : Value × World) : World :=
  made.2.modifyScopes fun g => g.set s name made.1

namespace Context

variable {c : Context} {ev : Evaluator} {a : Activation} {right : NodeId} {name : String} {s : ScopeId}

/-- A function that cannot be created fails, with or without a name for it. -/
theorem like_named_of_error (hrules : ev.rules = RuleTable.default)
    (hanonymous : (ev.context a).isAnonymousFunction right = true) {cause : Cause}
    (h : Closure.ofNode a.tree right s none = .error cause) :
    ((ev.context a).eval right s).Like ev ((ev.context a).evalNamed right s (some name)) := by
  have hfail : ((ev.context a).eval right s).Like ev (Eval.fail cause) := by
    refine (like_function hrules hanonymous).trans (Eval.like_of_eq ?_)
    rw [createClosure, show Closure.ofNode (ev.context a).tree right s none = _ from h]
    rfl
  exact hfail.trans (hfail.bind fun _ => .refl ev _).symm

/-- What an anonymous function is assigned as, with the name or without one. -/
theorem comesTo_function (name : String) (hrules : ev.rules = RuleTable.default)
    (hanonymous : (ev.context a).isAnonymousFunction right = true) {closure : Closure}
    (h : Closure.ofNode a.tree right s none = .ok closure) (w : World) :
    (((ev.context a).eval right s >>= (ev.context a).writeName s name) w).ComesTo ev
        (some (.ok (w.newClosure closure).1, World.assigned s name (w.newClosure closure))) ∧
      (((ev.context a).evalNamed right s (some name) >>= (ev.context a).writeName s name) w).ComesTo ev
        (some (.ok ((w.newClosure closure).2.newClosure { closure with name := some name }).1,
          World.assigned s name ((w.newClosure closure).2.newClosure { closure with name := some name }))) := by
  have hmade : ((ev.context a).eval right s w).ComesTo ev
      (some (.ok (w.newClosure closure).1, (w.newClosure closure).2)) := by
    refine (like_function hrules hanonymous w).comesTo_ok_iff.mpr ?_
    rw [createClosure, show Closure.ofNode (ev.context a).tree right s none = _ from h]
    exact .done _ _
  have hfound : (w.newClosure closure).2.closure? w.closures.size = some closure := by
    simp [World.newClosure, World.closure?]
  have hname : Context.named (w.newClosure closure).2 name w.closures.size =
      (w.newClosure closure).2.newClosure { closure with name := some name } := by
    rw [Context.named, hfound]
    simp [name_of_anonymous (c := ev.context a) hanonymous h]
  have hnamed : ((ev.context a).evalNamed right s (some name) w).ComesTo ev
      (some (.ok ((w.newClosure closure).2.newClosure { closure with name := some name }).1,
        ((w.newClosure closure).2.newClosure { closure with name := some name }).2)) := by
    refine Computation.comesTo_andThen_iff.mpr (Or.inl ⟨_, _, hmade, ?_⟩)
    show ((if (ev.context a).isAnonymousFunction right then
      Eval.makes fun w' => Context.named w' name w.closures.size else _) (w.newClosure closure).2).ComesTo ev _
    rw [if_pos hanonymous, Eval.makes, hname]
    exact .done _ _
  exact ⟨Computation.comesTo_andThen_iff.mpr (Or.inl ⟨_, _, hmade, .done _ _⟩),
    Computation.comesTo_andThen_iff.mpr (Or.inl ⟨_, _, hnamed, .done _ _⟩)⟩

end Context

namespace Evaluator

variable {ev : Evaluator} {a : Activation} {target target' left : NodeId} {name : String}

/-- **Compound assignment is its expansion, but for the name of a function.** For a name `x` and any right-hand
side `e`, `x op= e` ends as `x = x op e` does for a binary operator, and as `x op (x = e)` for `&&`, `||` and
`??`, unless `e` is an anonymous function that is created and assigned: the compound assignment writes it
without a name, and the expansion under the name `x`. -/
theorem compound_expands (hrules : ev.rules = RuleTable.default) (htarget : a.tree.identifierName? target = some name)
    (htarget' : a.tree.identifierName? target' = some name) (hleft : a.tree.identifierName? left = some name)
    (right : NodeId) (s : ScopeId) (w : World) :
    (∀ op n n' b, op ≠ "" → Context.isLogical op = false →
      a.tree.IsOperation "AssignmentExpression" n (op ++ "=") target right →
      a.tree.IsOperation "AssignmentExpression" n' "=" target' b →
      a.tree.IsOperation "BinaryExpression" b op left right → ev.SameEnd (.eval a n s) (.eval a n' s) w) ∧
    ∀ op n n' m, Context.isLogical op = true →
      a.tree.IsOperation "AssignmentExpression" n (op ++ "=") target right →
      a.tree.IsOperation "LogicalExpression" n' op left m →
      a.tree.IsOperation "AssignmentExpression" m "=" target' right →
        ((ev.context a).isAnonymousFunction right = false ∨
          Context.settledBy? op (Context.valueOf s name w) = some true ∨
          (∃ cause, Closure.ofNode a.tree right s none = .error cause) →
            ev.SameEnd (.eval a n s) (.eval a n' s) w) ∧
        ((ev.context a).isAnonymousFunction right = true →
          Context.settledBy? op (Context.valueOf s name w) = some false →
          ∀ closure, Closure.ofNode a.tree right s none = .ok closure → closure.name = none ∧
            (∃ steps, ev.perform steps (.eval a n s) w =
              .ended (.ok (w.newClosure closure).1, World.assigned s name (w.newClosure closure))) ∧
            ∃ steps, ev.perform steps (.eval a n' s) w =
              .ended (.ok ((w.newClosure closure).2.newClosure { closure with name := some name }).1,
                World.assigned s name ((w.newClosure closure).2.newClosure { closure with name := some name }))) := by
  refine ⟨fun op n n' b hempty hop h h' hb => sameEnd_of_like
    (Context.like_binary_expansion hrules hempty hop h htarget h' htarget' hb hleft w),
    fun op n n' m hop h h' hm => ?_⟩
  obtain ⟨settled, hsettled⟩ := Context.exists_settledBy hop (Context.valueOf s name w)
  have hcompound := Context.like_logical hrules hop h htarget hsettled
  have hexpansion := Context.like_logical_expansion hrules h' hleft hm htarget' hsettled
  constructor
  · intro hcase
    refine sameEnd_of_like (hcompound.trans (.trans ?_ hexpansion.symm))
    cases settled with
    | true => exact .refl ev _
    | false =>
      have hright : ((ev.context a).eval right s).Like ev ((ev.context a).evalNamed right s (some name)) := by
        cases hanonymous : (ev.context a).isAnonymousFunction right with
        | false => exact Eval.like_of_eq (Context.evalNamed_eq hanonymous _).symm
        | true =>
          obtain hnot | htrue | ⟨cause, hcause⟩ := hcase
          · rw [hanonymous] at hnot
            cases hnot
          · rw [hsettled] at htrue
            cases htrue
          · exact Context.like_named_of_error hrules hanonymous hcause
      exact hright.bind (fun _ => .refl ev _) w
  · intro hanonymous hfalse closure hclosure
    obtain rfl : settled = false := Option.some.inj (hsettled.symm.trans hfalse)
    obtain ⟨hunnamed, hnamed⟩ := Context.comesTo_function name hrules hanonymous hclosure w
    exact ⟨Context.name_of_anonymous (c := ev.context a) hanonymous hclosure,
      comesTo_ask_iff.mp (hcompound.comesTo_ok_iff.mpr hunnamed),
      comesTo_ask_iff.mp (hexpansion.comesTo_ok_iff.mpr hnamed)⟩

/-- `x += "a"` and `x = x + "a"` at the nodes 2 and 4, `x ??= function () {}` and `x ?? (x = function () {})` at
the nodes 7 and 9. -/
def expansions : Activation where
  tree :=
    { nodes := #[⟨"Identifier", [("name", .str "x")]⟩, ⟨"Literal", [("value", .str "a")]⟩,
        ⟨"AssignmentExpression", [("operator", .str "+="), ("left", .node 0), ("right", .node 1)]⟩,
        ⟨"BinaryExpression", [("operator", .str "+"), ("left", .node 0), ("right", .node 1)]⟩,
        ⟨"AssignmentExpression", [("operator", .str "="), ("left", .node 0), ("right", .node 3)]⟩,
        ⟨"FunctionExpression", [("params", .list []), ("body", .node 6)]⟩, ⟨"BlockStatement", [("body", .list [])]⟩,
        ⟨"AssignmentExpression", [("operator", .str "??="), ("left", .node 0), ("right", .node 5)]⟩,
        ⟨"AssignmentExpression", [("operator", .str "="), ("left", .node 0), ("right", .node 5)]⟩,
        ⟨"LogicalExpression", [("operator", .str "??"), ("left", .node 0), ("right", .node 8)]⟩]
      root := 4 }
  links := .start 4 0
  depth := 0

theorem compound_expands_expansions :
    standard.SameEnd (.eval expansions 2 0) (.eval expansions 4 0) {} ∧
    ∃ closure : Closure, closure.name = none ∧
      (∃ steps w, standard.perform steps (.eval expansions 7 0) {} = .ended (.ok (.closure 0), w)) ∧
      ∃ steps w, standard.perform steps (.eval expansions 9 0) {} = .ended (.ok (.closure 1), w) ∧
        w.closure? 1 = some { closure with name := some "x" } := by
  constructor
  · have hname : expansions.tree.identifierName? 0 = some "x" := rfl
    exact (compound_expands standard_rules hname hname hname 1 0 {}).1 "+" 2 4 3 (by decide) rfl
      ⟨rfl, rfl, rfl, rfl⟩ ⟨rfl, rfl, rfl, rfl⟩ ⟨rfl, rfl, rfl, rfl⟩
  · have hname : expansions.tree.identifierName? 0 = some "x" := rfl
    obtain ⟨-, hfunction⟩ := (compound_expands standard_rules hname hname hname 5 0 {}).2 "??" 7 9 8 rfl
      ⟨rfl, rfl, rfl, rfl⟩ ⟨rfl, rfl, rfl, rfl⟩ ⟨rfl, rfl, rfl, rfl⟩
    obtain ⟨hname, ⟨steps, hcompound⟩, steps', hexpansion⟩ := hfunction rfl rfl _ rfl
    exact ⟨_, hname, ⟨steps, _, hcompound⟩, steps', _, hexpansion, rfl⟩

/-- `function () {}`. -/
def namelessFunction : Json :=
  .ofNode "FunctionExpression" [("id", .null), ("params", .array []),
    ("body", .ofNode "BlockStatement" [("body", .array [])])]

/-- An assignment to the name `f`. -/
def assignmentToF (op : String) (right : Json) : Json :=
  .ofNode "AssignmentExpression" [("operator", .string op), ("left", .ofName "f"), ("right", right)]

/-- Whether a run ends with a closure of a given name. -/
def endsNamed (name : Option String) : Run (Except Abrupt Value × World) → Bool
  | .ended (.ok (.closure id), w) => (w.closure? id).map Closure.name == some name
  | _ => false

theorem exists_of_endsNamed {name : Option String} {run : Run (Except Abrupt Value × World)}
    (h : endsNamed name run = true) :
    ∃ id w closure, run = .ended (.ok (.closure id), w) ∧ w.closure? id = some closure ∧ closure.name = name := by
  unfold endsNamed at h
  split at h
  next id w =>
    obtain ⟨closure, hclosure, hname⟩ := Option.map_eq_some_iff.mp (beq_iff_eq.mp h)
    exact ⟨id, w, closure, rfl, hclosure, hname⟩
  · cases h

/-- `f ??= function () {}` comes to a function without a name, and `f ?? (f = function () {})` to one that is
named `f`. -/
theorem logical_assignment_leaves_unnamed :
    (∃ t id w closure, Tree.ofJson (assignmentToF "??=" namelessFunction) = .ok t ∧
      standard.perform 40 (.eval ⟨t, .start t.root 0, 0⟩ t.root 0) {} = .ended (.ok (.closure id), w) ∧
      w.closure? id = some closure ∧ closure.name = none) ∧
    ∃ t id w closure, Tree.ofJson (.ofNode "LogicalExpression" [("operator", .string "??"), ("left", .ofName "f"),
        ("right", assignmentToF "=" namelessFunction)]) = .ok t ∧
      standard.perform 40 (.eval ⟨t, .start t.root 0, 0⟩ t.root 0) {} = .ended (.ok (.closure id), w) ∧
      w.closure? id = some closure ∧ closure.name = some "f" := by
  constructor
  · obtain ⟨t, ht, hnamed⟩ := Tree.exists_ofJson (j := assignmentToF "??=" namelessFunction)
      (p := fun t => endsNamed none (standard.perform 40 (.eval ⟨t, .start t.root 0, 0⟩ t.root 0) {}))
      (by decide +kernel)
    obtain ⟨id, w, closure, hrun, hclosure, hname⟩ := exists_of_endsNamed hnamed
    exact ⟨t, id, w, closure, ht, hrun, hclosure, hname⟩
  · obtain ⟨t, ht, hnamed⟩ := Tree.exists_ofJson (j := .ofNode "LogicalExpression" [("operator", .string "??"),
        ("left", .ofName "f"), ("right", assignmentToF "=" namelessFunction)])
      (p := fun t => endsNamed (some "f") (standard.perform 40 (.eval ⟨t, .start t.root 0, 0⟩ t.root 0) {}))
      (by decide +kernel)
    obtain ⟨id, w, closure, hrun, hclosure, hname⟩ := exists_of_endsNamed hnamed
    exact ⟨t, id, w, closure, ht, hrun, hclosure, hname⟩

end Evaluator

end ScriptCore

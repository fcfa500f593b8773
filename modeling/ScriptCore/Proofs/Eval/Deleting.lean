import ScriptCore.Proofs.Eval.Limits
import ScriptCore.Proofs.Value.Deleting

/-!
# The operator `delete`

What `delete` does with its operand and what it answers. The property of a member expression is deleted, once its
base and key are evaluated; a name is not deleted; any other operand is evaluated and nothing more, although the
answer is `true`, and a chain with optional links is such an operand (`Evaluator.delete_answers`).
-/
namespace ScriptCore

/-- A node that deletes its operand. -/
def Tree.IsDelete (t : Tree) (n argument : NodeId) : Prop :=
  t.tag n = "UnaryExpression" ∧ t.text? n "operator" = some "delete" ∧ t.child? n "argument" = some argument

/-- A chain around a member expression. -/
def Tree.IsMemberChain (t : Tree) (n member : NodeId) : Prop :=
  t.tag n = "ChainExpression" ∧ t.child? n "expression" = some member ∧ t.tag member = "MemberExpression"

namespace Evaluator

/-- The base of a member expression was evaluated, -/
def Based (ev : Evaluator) (a : Activation) (member : NodeId) (s : ScopeId) (w : World) (base : Value)
    (w' : World) : Prop :=
  ∃ object used, a.tree.child? member "object" = some object ∧
    ev.perform used (.eval a object s) w = .ended (.ok base, w')

/-- and then its key. -/
def Keyed (ev : Evaluator) (a : Activation) (member : NodeId) (s : ScopeId) (w : World) (base : Value)
    (key : String) (w' : World) : Prop :=
  ∃ w₁ errands, ev.Based a member s w base w₁ ∧
    ((ev.context a).propertyKey member "property" s w₁).Takes ev errands (.ok key) w'

variable {ev : Evaluator} {a : Activation} {n argument member : NodeId} {s : ScopeId} {w w' : World}
  {value : Value} {steps : Nat} {errands : List Errand}

/-- `delete` takes its operand. -/
theorem takes_delete (hrule : ev.rules.get? "UnaryExpression" = some .unaryExpression)
    (hdelete : a.tree.IsDelete n argument) (h : ev.perform steps (.eval a n s) w = .ended (.ok value, w')) :
    ∃ errands, ((ev.context a).delete argument s w).Takes ev errands (.ok value) w' := by
  obtain ⟨htag, hop, hargument⟩ := hdelete
  obtain ⟨errands, htakes⟩ := takes_of_eval (htag ▸ hrule) h
  have hunary : ((ev.context a).unaryExpression n s w).Takes ev errands (.ok value) w' := htakes
  rw [Context.unaryExpression] at hunary
  obtain ⟨op, hop', hunary⟩ := Context.takes_operator hunary
  obtain ⟨child, hchild, hunary⟩ := Context.takes_require hunary
  obtain rfl : op = "delete" := Option.some.inj (hop'.symm.trans hop)
  obtain rfl : child = argument := Option.some.inj (hchild.symm.trans hargument)
  exact ⟨errands, hunary⟩

/-- A base is evaluated by an errand. -/
theorem based_of_takes {β : Type} {b : β} {f : Value → Eval β}
    (h : (((ev.context a).require member "object" >>= fun object => (ev.context a).eval object s >>= f) w).Takes
      ev errands (.ok b) w') :
    ∃ base w₁ rest, ev.Based a member s w base w₁ ∧ (f base w₁).Takes ev rest (.ok b) w' := by
  obtain ⟨object, hobject, hbase⟩ := Context.takes_require h
  obtain ⟨base, w₁, rest, rfl, hrest⟩ := Eval.takes_ask hbase
  obtain ⟨used, hperform⟩ := hbase.performed _ List.mem_cons_self
  exact ⟨base, w₁, rest, ⟨object, used, hobject, hperform⟩, hrest⟩

/-- A property is deleted from what its operands came to. -/
theorem deletes_member (hmember : a.tree.tag member = "MemberExpression")
    (h : ((ev.context a).delete member s w).Takes ev errands (.ok value) w') :
    ∃ base key w₁ gone, ev.Keyed a member s w base key w₁ ∧ value = .bool gone ∧
      w₁.deleteProperty base key = (.ok gone, w') ∧ w₁.Deletes base key gone w' := by
  have hmember' : (ev.context a).tree.is member "MemberExpression" = true := beq_iff_eq.mpr hmember
  rw [Context.delete, if_pos hmember'] at h
  obtain ⟨base, w₁, rest, hbased, h⟩ := based_of_takes h
  obtain ⟨evals, others, key, w₂, rfl, hkey, hgone⟩ := h.of_andThen
  obtain ⟨gone, w₃, hdelete, hdone⟩ := Eval.takes_attempts hgone
  obtain ⟨-, rfl, rfl⟩ := Eval.takes_pure hdone
  refine ⟨base, key, w₂, gone, ⟨w₁, evals, hbased, hkey⟩, rfl, hdelete, ?_⟩
  obtain ⟨hnullish, hothers⟩ := w₂.deletes base key
  cases hbase : base.isNullish with
  | true =>
    rw [hnullish hbase] at hdelete
    cases hdelete
  | false =>
    obtain ⟨gone', w₄, hdelete', hdeletes⟩ := hothers hbase
    cases hdelete.symm.trans hdelete'
    exact hdeletes

/-- An evaluation that is asked for is performed. -/
theorem performed_of_takes (h : ((ev.context a).eval n s w).Takes ev errands (.ok value) w') :
    ∃ used, ev.perform used (.eval a n s) w = .ended (.ok value, w') := by
  cases h with
  | ask hperform hrest =>
    cases hrest
    exact ⟨_, hperform⟩

/-- Any operand but a member expression or a name is evaluated, and that is all. -/
theorem evaluates_operand (hmember : a.tree.tag argument ≠ "MemberExpression")
    (hname : a.tree.tag argument ≠ "Identifier")
    (h : ((ev.context a).delete argument s w).Takes ev errands (.ok value) w') :
    value = .bool true ∧ ∃ used given, ev.perform used (.eval a argument s) w = .ended (.ok given, w') := by
  have hmember' : ¬ (ev.context a).tree.is argument "MemberExpression" = true := mt beq_iff_eq.mp hmember
  have hname' : ¬ (ev.context a).tree.is argument "Identifier" = true := mt beq_iff_eq.mp hname
  rw [Context.delete, if_neg hmember', if_neg hname'] at h
  obtain ⟨given, w₁, rest, rfl, hrest⟩ := Eval.takes_ask h
  obtain ⟨rfl, rfl, rfl⟩ := Eval.takes_pure hrest
  obtain ⟨used, hperform⟩ := h.performed _ List.mem_cons_self
  exact ⟨rfl, used, given, hperform⟩

/-- What a member expression read, in the world that it left: the property of its base, or nothing at an optional
link from a nullish base. -/
def Reads (ev : Evaluator) (a : Activation) (member : NodeId) (s : ScopeId) (w : World) (read : Value)
    (w' : World) : Prop :=
  (∃ base, ev.Based a member s w base w' ∧ base.isNullish = true ∧ a.tree.flag member "optional" = true ∧
    read = .undefined) ∨
  ∃ base key, ev.Keyed a member s w base key w' ∧ w'.getProperty base key = .ok read

theorem reads_member (hrule : ev.rules.get? "MemberExpression" = some .memberExpression)
    (hmember : a.tree.tag member = "MemberExpression")
    (h : ev.perform steps (.eval a member s) w = .ended (.ok value, w')) : ev.Reads a member s w value w' := by
  obtain ⟨errands, htakes⟩ := takes_of_eval (hmember ▸ hrule) h
  have hmeaning : ((ev.context a).memberExpression member s w).Takes ev errands (.ok value) w' := htakes
  rw [Context.memberExpression] at hmeaning
  obtain ⟨base, w₁, rest, hbased, hread⟩ := based_of_takes hmeaning
  by_cases hcut : (base.isNullish && (ev.context a).tree.flag member "optional") = true
  · rw [if_pos hcut] at hread
    obtain ⟨-, rfl, rfl⟩ := Eval.takes_pure hread
    obtain ⟨hnullish, hoptional⟩ := (Bool.and_eq_true _ _).mp hcut
    exact Or.inl ⟨base, hbased, hnullish, hoptional, rfl⟩
  · rw [if_neg hcut] at hread
    obtain ⟨evals, others, key, w₂, rfl, hkey, hget⟩ := hread.of_andThen
    obtain ⟨-, hread, rfl⟩ := Eval.of_checks hget
    exact Or.inr ⟨base, key, ⟨w₁, evals, hbased, hkey⟩, hread⟩

/-- A chain is evaluated as the expression inside it. -/
theorem performed_chain (hrule : ev.rules.get? "ChainExpression" = some .chainExpression)
    (hchain : a.tree.IsMemberChain n member)
    (h : ev.perform steps (.eval a n s) w = .ended (.ok value, w')) :
    ∃ used, ev.perform used (.eval a member s) w = .ended (.ok value, w') := by
  obtain ⟨htag, hexpression, -⟩ := hchain
  obtain ⟨errands, htakes⟩ := takes_of_eval (htag ▸ hrule) h
  have hmeaning : ((ev.context a).chainExpression n s w).Takes ev errands (.ok value) w' := htakes
  rw [Context.chainExpression] at hmeaning
  obtain ⟨child, hchild, hmeaning⟩ := Context.takes_require hmeaning
  obtain rfl : child = member := Option.some.inj (hchild.symm.trans hexpression)
  exact performed_of_takes hmeaning

/-- **What `delete` answers.** The property of a member expression is deleted once its operands are evaluated, and
the answer is that of the deletion: nothing but the property is touched, and it is gone if the answer is `true`
and as it was if it is `false`; but what strings and functions have of themselves is left, with the answer
`true`. For a name the answer is `false`, and nothing is done. Any other operand is evaluated, and the answer is
`true`; of a member expression in a chain the property can still be read as before. -/
theorem delete_answers (hrule : ev.rules.get? "UnaryExpression" = some .unaryExpression)
    (hdelete : a.tree.IsDelete n argument) (h : ev.perform steps (.eval a n s) w = .ended (.ok value, w')) :
    (a.tree.tag argument = "MemberExpression" → ∃ base key w₁ gone, ev.Keyed a argument s w base key w₁ ∧
        value = .bool gone ∧ w₁.deleteProperty base key = (.ok gone, w') ∧ w₁.Deletes base key gone w') ∧
      (a.tree.tag argument = "Identifier" → value = .bool false ∧ w' = w) ∧
      (a.tree.tag argument ≠ "MemberExpression" → a.tree.tag argument ≠ "Identifier" → value = .bool true ∧
        ∃ used given, ev.perform used (.eval a argument s) w = .ended (.ok given, w')) ∧
      ∀ member, ev.rules.get? "ChainExpression" = some .chainExpression →
        ev.rules.get? "MemberExpression" = some .memberExpression → a.tree.IsMemberChain argument member →
          value = .bool true ∧ ∃ read, ev.Reads a member s w read w' := by
  obtain ⟨errands, htakes⟩ := takes_delete hrule hdelete h
  refine ⟨fun hmember => deletes_member hmember htakes, fun hname => ?_,
    fun hmember hname => evaluates_operand hmember hname htakes, fun member hchain hmember hmemberChain => ?_⟩
  · have hmember' : ¬ (ev.context a).tree.is argument "MemberExpression" = true := by
      have htag : (ev.context a).tree.tag argument = "Identifier" := hname
      simp [Tree.is, htag]
    have hname' : (ev.context a).tree.is argument "Identifier" = true := beq_iff_eq.mpr hname
    rw [Context.delete, if_neg hmember', if_pos hname'] at htakes
    obtain ⟨-, rfl, rfl⟩ := Eval.takes_pure htakes
    exact ⟨rfl, rfl⟩
  · have htag := hmemberChain.1
    obtain ⟨hvalue, used, given, hperform⟩ := evaluates_operand (by rw [htag]; decide) (by rw [htag]; decide) htakes
    obtain ⟨used', hperform'⟩ := performed_chain hchain hmemberChain hperform
    exact ⟨hvalue, given, reads_member hmember hmemberChain.2.2 hperform'⟩

/-- The JSON of a member expression. -/
def memberJson (object : Json) (name : String) : Json :=
  .ofNode "MemberExpression" [("object", object), ("property", .ofName name)]

/-- The JSON of a node that deletes its operand. -/
def deletionJson (argument : Json) : Json :=
  .ofNode "UnaryExpression" [("operator", .string "delete"), ("argument", argument)]

/-- `{ a: true }`. -/
def fieldJson : Json :=
  .ofNode "ObjectExpression" [("properties", .array [.ofNode "Property"
    [("key", .ofName "a"), ("value", .ofNode "Literal" [("value", .bool true)])]])]

theorem delete_answers_field : ∃ (t : Tree) (base : Value) (key : String) (w₁ : World) (gone : Bool) (w' : World),
    Tree.ofJson (deletionJson (memberJson fieldJson "a")) = .ok t ∧
    standard.perform 40 (.eval ⟨t, .start t.root 0, 0⟩ t.root 0) {} = .ended (.ok (.bool gone), w') ∧
    w₁.Deletes base key gone w' := by
  obtain ⟨t, ht, hcheck⟩ := Tree.exists_ofJson (j := deletionJson (memberJson fieldJson "a"))
    (p := fun t => t.tag t.root == "UnaryExpression" && t.text? t.root "operator" == some "delete" &&
      t.child? t.root "argument" == some 5 && t.tag 5 == "MemberExpression" &&
      hasValue (standard.perform 40 (.eval ⟨t, .start t.root 0, 0⟩ t.root 0) {}))
    (by decide +kernel)
  simp only [Bool.and_eq_true, beq_iff_eq] at hcheck
  obtain ⟨⟨⟨⟨htag, hop⟩, hargument⟩, hmember⟩, hvalue⟩ := hcheck
  obtain ⟨value, w', hrun⟩ := exists_of_hasValue hvalue
  obtain ⟨hdeletes, -⟩ := delete_answers (by decide +kernel) ⟨htag, hop, hargument⟩ hrun
  obtain ⟨base, key, w₁, gone, -, rfl, -, hdeletes⟩ := hdeletes hmember
  exact ⟨t, base, key, w₁, gone, w', ht, hrun, hdeletes⟩

/-- `var o = { a: true }; delete o?.a`. -/
def deletionInChain : Json :=
  .ofNode "Program" [("body", .array [
    .ofNode "VariableDeclaration" [("kind", .string "var"), ("declarations", .array [
      .ofNode "VariableDeclarator" [("id", .ofName "o"), ("init", fieldJson)]])],
    .ofNode "ExpressionStatement" [("expression", deletionJson (.ofNode "ChainExpression"
      [("expression", .ofNode "MemberExpression" [("object", .ofName "o"), ("property", .ofName "a"),
        ("optional", .bool true)])]))]])]

/-- Whether a run ends with `true` in a world where `o` has the field `a` with `true`. -/
def leavesField : Run (Except Abrupt Value × World) → Bool
  | .ended (.ok (.bool true), w) =>
    match w.scopes.get? 0 "o" with
    | some (.object id) =>
      match w.getProperty (.object id) "a" with
      | .ok (.bool true) => true
      | _ => false
    | _ => false
  | _ => false

theorem exists_of_leavesField {run : Run (Except Abrupt Value × World)} (h : leavesField run = true) :
    ∃ id w, run = .ended (.ok (.bool true), w) ∧ w.scopes.get? 0 "o" = some (.object id) ∧
      w.getProperty (.object id) "a" = .ok (.bool true) := by
  unfold leavesField at h
  split at h
  next w =>
    split at h
    next id ho =>
      split at h
      next hread => exact ⟨id, w, rfl, ho, hread⟩
      · cases h
    · cases h
  · cases h

/-- Deleting a field through an optional link is answered with `true`, and so is deleting the length of a string;
both can still be read. -/
theorem delete_leaves_readable :
    (∃ t r w₁ id w₂, Tree.ofJson deletionInChain = .ok t ∧
      standard.resolve t 0 (World.newRootScope {}).2 = (.ok r, w₁) ∧
      standard.perform 40 (.eval ⟨r.tree, r.links, 0⟩ r.links.root r.links.rootScope) w₁ =
        .ended (.ok (.bool true), w₂) ∧
      w₂.scopes.get? 0 "o" = some (.object id) ∧ w₂.getProperty (.object id) "a" = .ok (.bool true)) ∧
      World.deleteProperty {} (.str "ab") "length" = (.ok true, {}) ∧
      World.getProperty {} (.str "ab") "length" = .ok (.number (Numeric.ofNat 2)) := by
  obtain ⟨t, ht, hfound⟩ := Tree.exists_ofJson (j := deletionInChain)
    (p := fun t => standard.resolvesTo t fun r w => leavesField
      (standard.perform 40 (.eval ⟨r.tree, r.links, 0⟩ r.links.root r.links.rootScope) w))
    (by decide +kernel)
  obtain ⟨r, w₁, hresolve, hleaves⟩ := exists_of_resolvesTo hfound
  obtain ⟨id, w₂, hrun, ho, hread⟩ := exists_of_leavesField hleaves
  exact ⟨⟨t, r, w₁, id, w₂, ht, hresolve, hrun, ho, hread⟩, rfl, rfl⟩

end Evaluator

end ScriptCore

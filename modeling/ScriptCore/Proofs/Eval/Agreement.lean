import ScriptCore.Proofs.Eval.Evaluated
import ScriptCore.Proofs.Eval.Limits
import ScriptCore.Proofs.Eval.OrderlyCall
import ScriptCore.Proofs.Eval.Relink

/-!
# Both passes agree on scopes

The resolution stamps scopes on nodes ahead of the evaluation; the evaluation hands scopes from rule to
rule. For grammatical programs both come to the same: a node that the resolution visited is evaluated in
the scope stamped on its parent, every block that is opened has a scope of the resolution, and every
declaration that is carried out has a target (`Evaluator.scopes_agree`). So no rule has to make do
without a record: further records in the links would change nothing.
-/
namespace ScriptCore

/-! ## What is opened and declared was visited -/

namespace Activation

variable {a : Activation} {n : NodeId}

theorem Sound.opened (ha : a.Sound) (h : a.Evaluates n) :
    ∀ block ∈ a.tree.openedBlocks n, (a.links.scope? block).isSome :=
  fun block hblock => (ha.stamped.contains_iff block).mpr (h.opened hblock)

theorem Sound.declared (ha : a.Sound) (h : a.Evaluates n) :
    ∀ d ∈ a.tree.declaringNodes n, (a.links.target? d).isSome := by
  intro d hd
  rw [Tree.declaringNodes_eq, List.mem_append] at hd
  obtain hdeclarator | hfunction := hd
  · have hsits := h.declarator hdeclarator
    exact ha.stamped.targeted hsits.visited (by rw [hsits.derives.tag_eq rfl]; rfl)
  · obtain ⟨hlisted, hkind⟩ := Tree.mem_functionsIn.mp hfunction
    exact ha.stamped.targeted (h.listed hlisted) (by rw [eq_of_beq hkind]; rfl)

end Activation

namespace Links

/-- Links with the same records and perhaps some more. -/
structure Extends (l l' : Links) : Prop where
  scopes : ∀ n s, l.scope? n = some s → l'.scope? n = some s
  targets : ∀ n s, l.target? n = some s → l'.target? n = some s

/-- Links with more records agree on what is recorded. -/
theorem Extends.agreesAt {l l' : Links} {t : Tree} {n : NodeId} (h : l.Extends l')
    (hopened : ∀ block ∈ t.openedBlocks n, (l.scope? block).isSome)
    (hdeclared : ∀ d ∈ t.declaringNodes n, (l.target? d).isSome) : l.AgreesAt l' t n where
  opened block hblock := by
    obtain ⟨own, hown⟩ := Option.isSome_iff_exists.mp (hopened block hblock)
    rw [hown, h.scopes block own hown]
  declared d hd := by
    obtain ⟨target, htarget⟩ := Option.isSome_iff_exists.mp (hdeclared d hd)
    rw [htarget, h.targets d target htarget]

end Links

namespace Evaluator

/-- **The passes agree on scopes.** In the run of a grammatical program, in the program itself and in
every call under it: a node that the resolution visited, outside the discriminants of switches and the
parameters of catch clauses, is evaluated in the scope stamped on its parent; every block that its rule
opens has a scope of the resolution; and every declarator and function declaration that its rule carries
out has a target. That is all its rule asks the links for: with any records besides, it would do the
same. -/
theorem scopes_agree {ev : Evaluator} (hrules : ev.rules = RuleTable.default)
    (hresolver : ev.resolver.rules = Hoist.defaultRules) (hclosures : ev.host.KeepsClosures) (j : Json)
    (t : Tree) (ht : Tree.ofJson j = .ok t) (hgrammar : t.Grammatical) (scope : ScopeId) (w w₁ : World)
    (hw : w.Sound) (r : Resolved) (hresolve : ev.resolve t scope w = (.ok r, w₁)) (steps : Nat)
    (a : Activation) (n : NodeId) (s : ScopeId) (w₂ : World)
    (hmem : (.eval a n s, w₂) ∈
      ev.performed steps (.eval ⟨r.tree, r.links, 0⟩ r.links.root r.links.rootScope) w₁) :
    (a.links.contains n = true → ¬ a.links.Sheltered a.tree n → a.links.around n = some s) ∧
      (∀ block ∈ a.tree.openedBlocks n, (a.links.scope? block).isSome) ∧
      (∀ d ∈ a.tree.declaringNodes n, (a.links.target? d).isSome) ∧
      ∀ l, a.links.Extends l →
        ev.evalNode { a with links := l } n s = (ev.evalNode a n s).relinked l := by
  obtain ⟨hfits, hsame⟩ := fits_program hresolver (Tree.ofJson_proper ht) hgrammar hresolve
  have hstart : (orderly ev.host).inv w₁ := hw.of_closures hsame
  obtain ⟨-, inner, hinner⟩ := Contract.mem_performed (orderly_keptBy hrules hresolver hclosures)
    hstart ⟨.never, hfits⟩ hmem
  obtain ⟨ha, hevaluates⟩ := Activation.evaluates_of_fits hinner
  have hplaced : a.Placed n s := by
    obtain ⟨-, ⟨-, hexpression⟩ | hstatement | ⟨-, hprogram⟩⟩ := hinner
    · exact hexpression.placed
    · exact hstatement.standing.placed
    · exact hprogram.standing.placed
  have hopened := ha.opened hevaluates
  have hdeclared := ha.declared hevaluates
  exact ⟨hplaced, hopened, hdeclared, fun l hl =>
    relinks_evalNode hrules (hl.agreesAt hopened hdeclared) s⟩

end Evaluator

/-- Nothing is sheltered in a tree without switches and catch clauses. -/
theorem Links.not_sheltered {t : Tree} (h : (t.nodes.all fun n =>
    n.tag != "SwitchStatement" && n.tag != "CatchClause") = true) (l : Links) (n : NodeId) :
    ¬ l.Sheltered t n := by
  have hplain (p child : NodeId) : ¬ t.Exempt p child := by
    have htag : t.tag p ≠ "SwitchStatement" ∧ t.tag p ≠ "CatchClause" := by
      rw [Tree.tag, Tree.node]
      cases hp : t.nodes[p]? with
      | none => simp
      | some node =>
        obtain ⟨hlt, hnode⟩ := Array.getElem?_eq_some_iff.mp hp
        rw [Array.all_eq_true] at h
        simpa [hnode] using h p hlt
    simp [Tree.Exempt, htag]
  intro hsheltered
  induction hsheltered with
  | start _ hexempt => exact hplain _ _ hexempt
  | inside _ _ ih => exact ih

/-- `function f() { while (true) { break; } } f();` -/
def loopProgram : Json :=
  let block (statement : Json) : Json := .ofNode "BlockStatement" [("body", .array [statement])]
  let loop := Json.ofNode "WhileStatement" [("test", .ofNode "Literal" [("value", .bool true)]),
    ("body", block (.ofNode "BreakStatement" []))]
  let function := Json.ofNode "FunctionDeclaration"
    [("id", .ofName "f"), ("params", .array []), ("body", block loop)]
  let call := Json.ofNode "CallExpression" [("callee", .ofName "f"), ("arguments", .array [])]
  .ofNode "Program" [("body", .array [function, .ofNode "ExpressionStatement" [("expression", call)]])]

namespace Evaluator

/-- Whether a task evaluates the `break` of `loopProgram` in a call. -/
def isBreakInCall (carried : Task × World) : Bool :=
  match carried.1 with
  | .eval a n _ => a.depth == 1 && a.tree.is n "BreakStatement" && a.links.contains n &&
    a.tree.nodes.all fun n => n.tag != "SwitchStatement" && n.tag != "CatchClause"
  | _ => false

theorem scopes_agree_break : ∃ t r w₁ a n s w₂, Tree.ofJson loopProgram = .ok t ∧
    standard.resolve t 0 (World.newRootScope {}).2 = (.ok r, w₁) ∧
    (.eval a n s, w₂) ∈
      standard.performed 40 (.eval ⟨r.tree, r.links, 0⟩ r.links.root r.links.rootScope) w₁ ∧
    a.depth = 1 ∧ a.tree.tag n = "BreakStatement" ∧ a.links.around n = some s := by
  obtain ⟨t, ht, hcheck⟩ := Tree.exists_ofJson (j := loopProgram)
    (p := fun t => t.derivesWithin 10 .program t.root && standard.resolvesTo t fun r w₁ =>
      (standard.performed 40 (.eval ⟨r.tree, r.links, 0⟩ r.links.root r.links.rootScope) w₁).any isBreakInCall)
    (by decide +kernel)
  rw [Bool.and_eq_true] at hcheck
  obtain ⟨hgrammar, hfound⟩ := hcheck
  obtain ⟨r, w₁, hresolve, hfound⟩ := exists_of_resolvesTo hfound
  obtain ⟨⟨task, w₂⟩, hmem, hbreak⟩ := List.any_eq_true.mp hfound
  cases task with
  | eval a n s =>
    simp only [isBreakInCall, Bool.and_eq_true, beq_iff_eq] at hbreak
    obtain ⟨⟨⟨hdepth, htag⟩, hcontains⟩, hplain⟩ := hbreak
    have hagree := scopes_agree standard_rules standard_resolver Host.standard_keepsClosures
      loopProgram t ht (Tree.derives_of_within hgrammar) 0 (World.newRootScope {}).2 w₁
      (World.sound_of_no_closures rfl) r hresolve 40 a n s w₂ hmem
    exact ⟨t, r, w₁, a, n, s, w₂, ht, hresolve, hmem, hdepth, eq_of_beq htag,
      hagree.1 hcontains (Links.not_sheltered hplain a.links n)⟩
  | _ => cases hbreak

end Evaluator

end ScriptCore

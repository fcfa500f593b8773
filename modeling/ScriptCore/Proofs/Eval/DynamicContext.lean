import ScriptCore.Proofs.Eval.Frames
import ScriptCore.Proofs.Eval.Limits

/-!
# The context of arrow functions

An arrow function has no `this` and no `arguments` of its own. It has those of the call that it was made
in, or, if that is a call of an arrow function in turn, of the call that one belongs to; and it keeps them,
however it is called and whenever.
-/
namespace ScriptCore

open ScopeGraph

/-- The names that an ordinary call binds in its frame. -/
def IsContextName (name : String) : Prop := name = "this" ∨ name = "arguments"

/-- What is evaluated in the call with scope `y`, or in the program if that is its root, belongs to the
call or the program with scope `x`. -/
inductive BelongsTo (run : List (Task × World)) (maxDepth : Nat) (x : ScopeId) : ScopeId → Prop
  /-- its own body and its own parameters -/
  | own : BelongsTo run maxDepth x x
  /-- a call of an arrow function that was made by what belongs to it -/
  | arrow {a : Activation} {task : Task} {w₀ w : World} {closure : Closure} {receiver : Value}
    (hmade : (.eval a closure.node closure.scope, w₀) ∈ run)
    (hmaker : BelongsTo run maxDepth x a.links.rootScope) (hcall : (task, w) ∈ run)
    (henters : task.Enters maxDepth w closure receiver) (harrow : closure.kind = .arrow) :
    BelongsTo run maxDepth x w.scopes.size

/-- What `this` and `arguments` are evaluated to in a scope of an activation. -/
structure Evaluator.Sees (ev : Evaluator) (a : Activation) (s : ScopeId) (w : World)
    (receiver arguments : Value) : Prop where
  this : ∀ n, a.tree.tag n = "ThisExpression" →
    ev.carryOut (.eval a n s) w = .done (.ok (.value receiver)) w
  arguments : ∀ n, a.tree.tag n = "Identifier" → a.tree.identifierName? n = some "arguments" →
    ev.carryOut (.eval a n s) w = .done (.ok (.value arguments)) w

namespace Evaluator

variable {ev : Evaluator} {kept : String → Prop} {root : ScopeId} {t : Tree} {maxDepth : Nat}
  {run : List (Task × World)} {origin : World}

/-- What is seen in a scope is what a lookup from it comes to. -/
theorem sees_of_lookup (hrules : ev.rules = RuleTable.default) (a : Activation) {s : ScopeId} {w : World}
    {receiver arguments : Value}
    (hthis : ((w.scopes.nearestDynamic? s).bind fun x => w.scopes.getOwn? x "this").getD .undefined = receiver)
    (harguments : (w.scopes.get? s "arguments").getD .undefined = arguments) :
    ev.Sees a s w receiver arguments where
  this n htag := by
    have hrule : RuleTable.default.get? (a.tree.tag n) = some .thisExpression := by
      rw [htag]
      exact RuleTable.get?_default ("ThisExpression", _) (by simp)
    rw [← hthis, carryOut, evalNode, hrules, hrule]
    rfl
  arguments n htag hname := by
    have hrule : RuleTable.default.get? (a.tree.tag n) = some .identifier := by
      rw [htag]
      exact RuleTable.get?_default ("Identifier", _) (by simp)
    have heval : ev.evalNode a n s = ((ev.context a).identifier n s).raisedAt n := by
      rw [evalNode, hrules, hrule]
      rfl
    have hcontext : (ev.context a).tree.identifierName? n = some "arguments" := hname
    rw [← harguments, carryOut, heval, Context.identifier, hcontext]
    rfl

section Orders

variable (horders : (framedCourse kept root t maxDepth run).Orders origin run)
include horders

/-- Where the scope of a call exists, its frame does. -/
theorem frame_of_mem {task task' : Task} {w w' : World} {closure : Closure} {receiver : Value}
    (hmem : (task, w) ∈ run) (henters : task.Enters maxDepth w closure receiver)
    (hmem' : (task', w') ∈ run) (hsize : w.scopes.size < w'.scopes.size) :
    w'.scopes.Frame kept closure receiver w.arrays.size w.scopes.size := by
  rcases horders.compare hmem hmem' with heq | ⟨-, hleaves⟩ | ⟨hlater, -⟩
  · cases heq
    exact absurd hsize (Nat.lt_irrefl _)
  · exact hleaves closure receiver henters
  · have hle : w'.scopes.size ≤ w.scopes.size := Later.size_le hlater
    exact absurd hsize (Nat.not_lt.mpr hle)

/-- A chain between scopes of one world of a run is there in all worlds that have the scopes. -/
theorem reaches_of_mem {task task' : Task} {w w' : World} {x s : ScopeId} (hmem : (task, w) ∈ run)
    (hmem' : (task', w') ∈ run) (h : w.scopes.Reaches root x s) (hs : s < w'.scopes.size) :
    w'.scopes.Reaches root x s := by
  have hw : w.scopes.Framed kept root := (horders.each _ hmem).1.scopes
  rcases horders.compare hmem hmem' with heq | ⟨hlater, -⟩ | ⟨hlater, -⟩
  · cases heq
    exact h
  · exact h.later hw hlater
  · exact h.earlier hw hlater hs

/-- From a scope there is a chain to the one it belongs to. -/
theorem reaches_of_belongsTo {x y : ScopeId} (h : BelongsTo run maxDepth x y) (hx : root ≤ x)
    {task : Task} {w : World} (hmem : (task, w) ∈ run) (hy : y < w.scopes.size) :
    w.scopes.Reaches root x y := by
  induction h with
  | own => exact .self hx hy
  | @arrow a call w₀ w' closure receiver hmade _ hcall henters harrow ih =>
    have hw : w.scopes.Framed kept root := (horders.each _ hmem).1.scopes
    have hw' : w'.Framed kept root t run := (horders.each _ hcall).1
    have hframe := frame_of_mem horders hcall henters hmem hy
    have hroot : root ≤ w'.scopes.size := Nat.le_of_lt hw'.scopes.root_lt
    have hcaptured : closure.scope < w.scopes.size :=
      Nat.lt_trans (hw.parent_bounds hroot hy hframe.parent).2 hy
    have hmaker : w₀.scopes.Reaches root a.links.rootScope closure.scope := (horders.each _ hmade).2.2.2
    have hchain := reaches_of_mem horders hmade hmem hmaker hcaptured
    exact (hchain.head hroot hy hframe.parent (hframe.plain harrow)).trans (ih (hchain.target hw).2.2)

/-- In a task of the run that belongs to a scope, there is a chain to that scope from the one at hand. -/
theorem reaches_of_eval {x : ScopeId} (hx : root ≤ x) {a : Activation} {n : NodeId} {s : ScopeId} {w : World}
    (hmem : (.eval a n s, w) ∈ run) (h : BelongsTo run maxDepth x a.links.rootScope) :
    w.scopes.Reaches root x s := by
  have hw : w.scopes.Framed kept root := (horders.each _ hmem).1.scopes
  obtain ⟨-, hs⟩ : a.Framed root t maxDepth run w ∧ w.scopes.Reaches root a.links.rootScope s :=
    (horders.each _ hmem).2.2
  exact hs.trans (reaches_of_belongsTo horders h hx hmem (hs.target hw).2.2)

/-- Every task belongs to the program or to a call of an ordinary function. -/
theorem belongsTo_of_eval {a : Activation} {n : NodeId} {s : ScopeId} {w : World}
    (hmem : (.eval a n s, w) ∈ run) : BelongsTo run maxDepth root a.links.rootScope ∨
      ∃ task w₀ closure receiver, (task, w₀) ∈ run ∧ task.Enters maxDepth w₀ closure receiver ∧
        closure.kind ≠ .arrow ∧ BelongsTo run maxDepth w₀.scopes.size a.links.rootScope := by
  induction hscope : a.links.rootScope using Nat.strongRecOn generalizing a n s w with
  | _ scope ih =>
    subst hscope
    obtain ⟨hframed, -⟩ : a.Framed root t maxDepth run w ∧ w.scopes.Reaches root a.links.rootScope s :=
      (horders.each _ hmem).2.2
    obtain heq | ⟨task, w₀, closure, receiver, hcall, henters, heq⟩ := hframed.entered
    · rw [heq]
      exact Or.inl .own
    · rw [heq] at ih ⊢
      by_cases harrow : closure.kind = .arrow
      · have hw₀ : w₀.Framed kept root t run := (horders.each _ hcall).1
        obtain ⟨id, hclosure⟩ := henters.closure?
        obtain ⟨-, -, hlt, hmade⟩ := hw₀.closures id closure hclosure
        obtain ⟨maker, w₁, hmaker⟩ := hmade harrow
        have hreach : w₁.scopes.Reaches root maker.links.rootScope closure.scope :=
          (horders.each _ hmaker).2.2.2
        have hle := (hreach.target (horders.each _ hmaker).1.scopes).2.1
        have hbelongs := ih maker.links.rootScope (Nat.lt_of_le_of_lt hle hlt) hmaker rfl
        refine hbelongs.imp (fun h => .arrow hmaker h hcall henters harrow) ?_
        rintro ⟨outer, w₂, function, given, hcall', henters', hkind, h⟩
        exact ⟨outer, w₂, function, given, hcall', henters', hkind, .arrow hmaker h hcall henters harrow⟩
      · exact Or.inr ⟨task, w₀, closure, receiver, hcall, henters, harrow, .own⟩

end Orders

/-- **Arrow functions keep the dynamic context of their creator.** A program that binds and assigns neither
`this` nor `arguments`, run against a fresh root scope: whatever belongs to a call of an ordinary function,
in whichever arrow functions and however late, has the receiver of that call as `this` and the array that
was made for it as `arguments`; what belongs to no such call has neither; and there is nothing else. -/
theorem context_kept (ev : Evaluator) (hrules : ev.rules = RuleTable.default)
    (hresolver : ev.resolver.rules = Hoist.defaultRules) (hscopes : ev.host.LeavesScopes)
    (hclosures : ev.host.MakesNoClosures) (t : Tree)
    (hnames : ∀ name, t.TargetName name → ¬ IsContextName name) (root : ScopeId) (w w₁ : World)
    (hw : w.Fresh IsContextName root) (r : Resolved) (hresolve : ev.resolve t root w = (.ok r, w₁))
    (steps : Nat) :
    let run := ev.performed steps (.eval ⟨r.tree, r.links, 0⟩ r.links.root r.links.rootScope) w₁
    let maxDepth := ev.limits.maxCallDepth
    (∀ depth id closure receiver args w₀,
      (.call depth (.closure id) receiver args, w₀) ∈ run → depth < maxDepth →
      w₀.closure? id = some closure → closure.kind ≠ .arrow →
      (ev.entered id closure receiver args w₀).world.arrays = w₀.arrays.push args.toArray ∧
      ∀ a n s w', (.eval a n s, w') ∈ run → BelongsTo run maxDepth w₀.scopes.size a.links.rootScope →
        ev.Sees a s w' receiver (.array w₀.arrays.size)) ∧
    (∀ a n s w', (.eval a n s, w') ∈ run → BelongsTo run maxDepth root a.links.rootScope →
      ev.Sees a s w' .undefined .undefined) ∧
    (∀ a n s w', (.eval a n s, w') ∈ run → BelongsTo run maxDepth root a.links.rootScope ∨
      ∃ task w₀ closure receiver, (task, w₀) ∈ run ∧ task.Enters maxDepth w₀ closure receiver ∧
        closure.kind ≠ .arrow ∧ BelongsTo run maxDepth w₀.scopes.size a.links.rootScope) := by
  intro run maxDepth
  have horders : (framedCourse IsContextName root t maxDepth run).Orders w₁ run :=
    orders_program hrules hresolver hscopes hclosures hnames hw hresolve steps
  refine ⟨fun depth id closure receiver args w₀ hcall hdepth hclosure hkind => ⟨?_, ?_⟩,
    fun a n s w' hmem hbelongs => ?_, fun a n s w' hmem => belongsTo_of_eval horders hmem⟩
  · exact ev.entered_arrays id (by simpa [Closure.isArrow] using hkind) receiver args w₀
  · intro a n s w' hmem hbelongs
    have henters : (Task.call depth (.closure id) receiver args).Enters maxDepth w₀ closure receiver :=
      ⟨hdepth, hclosure, rfl⟩
    have hroot : root ≤ w₀.scopes.size :=
      Nat.le_of_lt (World.Framed.scopes (horders.each _ hcall).1).root_lt
    have hframed : w'.scopes.Framed IsContextName root := (horders.each _ hmem).1.scopes
    have hreach := reaches_of_eval horders hroot hmem hbelongs
    have hframe := frame_of_mem horders hcall henters hmem (hreach.target hframed).2.2
    obtain ⟨hnearest, hcells⟩ := hframed.reads_marked hreach (hframe.marked hkind)
    refine sees_of_lookup hrules a ?_ ?_
    · rw [hnearest, Option.bind_some, hframe.this hkind (Or.inl rfl)]
      rfl
    · rw [hcells "arguments" _ (Or.inr rfl) (hframe.arguments hkind (Or.inr rfl))]
      rfl
  · have hframed : w'.scopes.Framed IsContextName root := (horders.each _ hmem).1.scopes
    have hreach := reaches_of_eval horders (Nat.le_refl root) hmem hbelongs
    obtain ⟨hnone, hbare⟩ := hframed.reads_root hreach
    refine sees_of_lookup hrules a ?_ ?_
    · rw [hnone]
      rfl
    · rw [hbare "arguments" (Or.inr rfl)]
      rfl

end Evaluator

/-- Whether no target of a tree is named `this` or `arguments`. -/
def Tree.leavesContext (t : Tree) : Bool :=
  (List.range t.size).all fun n => (t.targets n).all fun p =>
    t.identifierName? p != some "this" && t.identifierName? p != some "arguments"

theorem Tree.not_isContextName_of_leaves {t : Tree} (h : t.leavesContext = true) {name : String}
    (hname : t.TargetName name) : ¬ IsContextName name := by
  obtain ⟨p, ⟨n, hp⟩, hidentifier⟩ := hname
  have htag : t.tag n ≠ "" := by
    intro htag
    simp [Tree.targets, htag] at hp
  have hcheck := List.all_eq_true.mp (Tree.of_all_nodes h htag) p hp
  rw [hidentifier] at hcheck
  simp only [Bool.and_eq_true, bne_iff_ne, ne_eq, Option.some.injEq] at hcheck
  rintro (rfl | rfl)
  · exact hcheck.1 rfl
  · exact hcheck.2 rfl

/-- `({ f: function () { return () => this; } }).f(true)()` -/
def arrowProgram : Json :=
  let arrow := Json.ofNode "ArrowFunctionExpression"
    [("params", .array []), ("body", .ofNode "ThisExpression" []), ("expression", .bool true)]
  let body := Json.ofNode "BlockStatement" [("body", .array [.ofNode "ReturnStatement" [("argument", arrow)]])]
  let method := Json.ofNode "Property" [("key", .ofName "f"),
    ("value", .ofNode "FunctionExpression" [("params", .array []), ("body", body)])]
  let object := Json.ofNode "ObjectExpression" [("properties", .array [method])]
  let outer := Json.ofNode "CallExpression"
    [("callee", .ofNode "MemberExpression" [("object", object), ("property", .ofName "f")]),
      ("arguments", .array [.ofNode "Literal" [("value", .bool true)]])]
  let inner := Json.ofNode "CallExpression" [("callee", outer), ("arguments", .array [])]
  .ofNode "Program" [("body", .array [.ofNode "ExpressionStatement" [("expression", inner)]])]

namespace Evaluator

/-- Whether four tasks are a call of an ordinary method, the making of an arrow function in it, a call of
that function with another receiver, and `this` in that call. -/
def isLentThis (maxDepth : Nat) : List (Task × World) → Bool
  | [(.call depth (.closure id) (.object _) _, w), (.eval a n s, _),
      (.call depth' (.closure id') .undefined _, w'), (.eval a' n' _, _)] =>
    depth < maxDepth && depth' < maxDepth && a.links.rootScope == w.scopes.size &&
      a'.links.rootScope == w'.scopes.size && a'.tree.tag n' == "ThisExpression" &&
      (w.closure? id).any (fun closure => closure.kind != .arrow) &&
      (w'.closure? id').any fun closure => closure.kind == .arrow && closure.node == n && closure.scope == s
  | _ => false

theorem context_kept_arrow : ∃ t r w₁ a n s w', Tree.ofJson arrowProgram = .ok t ∧
    standard.resolve t 0 (World.newRootScope {}).2 = (.ok r, w₁) ∧
    (.eval a n s, w') ∈
      standard.performed 40 (.eval ⟨r.tree, r.links, 0⟩ r.links.root r.links.rootScope) w₁ ∧
    a.tree.tag n = "ThisExpression" ∧
    ∃ object, standard.carryOut (.eval a n s) w' = .done (.ok (.value (.object object))) w' := by
  obtain ⟨t, ht, hcheck⟩ := Tree.exists_ofJson (j := arrowProgram)
    (p := fun t => t.leavesContext && standard.resolvesTo t fun r w =>
      isLentThis standard.limits.maxCallDepth ([7, 10, 11, 12].filterMap fun i =>
        (standard.performed 40 (.eval ⟨r.tree, r.links, 0⟩ r.links.root r.links.rootScope) w)[i]?))
    (by decide +kernel)
  rw [Bool.and_eq_true] at hcheck
  obtain ⟨hleaves, hfound⟩ := hcheck
  obtain ⟨r, w₁, hresolve, hfour⟩ := exists_of_resolvesTo hfound
  have hkept := context_kept standard standard_rules standard_resolver Host.standard_leavesScopes
    Host.standard_makesNoClosures t (fun _ => Tree.not_isContextName_of_leaves hleaves) 0
    (World.newRootScope {}).2 w₁ (World.fresh_newRootScope _) r hresolve 40
  refine ⟨t, r, w₁, ?_⟩
  generalize standard.performed 40 (.eval ⟨r.tree, r.links, 0⟩ r.links.root r.links.rootScope) w₁ = run
    at hfour hkept ⊢
  have hsub : ∀ carried ∈ [7, 10, 11, 12].filterMap fun i => run[i]?, carried ∈ run := by
    intro carried hcarried
    obtain ⟨i, -, hi⟩ := List.mem_filterMap.mp hcarried
    exact List.mem_of_getElem? hi
  generalize ([7, 10, 11, 12].filterMap fun i => run[i]?) = four at hfour hsub
  unfold isLentThis at hfour
  split at hfour
  next depth id receiver args w a n s w₀ depth' id' args' w' a' n' s' w'' =>
    simp only [Bool.and_eq_true, decide_eq_true_eq, beq_iff_eq, Option.any_eq_true, bne_iff_ne] at hfour
    obtain ⟨⟨⟨⟨⟨⟨hdepth, hdepth'⟩, hroot⟩, hroot'⟩, htag⟩, closure, hclosure, hkind⟩, arrow, harrow,
      ⟨hkind', hnode⟩, hscope⟩ := hfour
    simp only [List.forall_mem_cons] at hsub
    obtain ⟨hcall, hmade, hcall', hmem, -⟩ := hsub
    have hown : BelongsTo run standard.limits.maxCallDepth w.scopes.size a.links.rootScope :=
      hroot ▸ .own
    have hbelongs : BelongsTo run standard.limits.maxCallDepth w.scopes.size a'.links.rootScope := by
      rw [hroot']
      exact .arrow (hnode ▸ hscope ▸ hmade) hown hcall' ⟨hdepth', harrow, rfl⟩ hkind'
    have hsees := (hkept.1 depth id closure _ args w hcall hdepth hclosure hkind).2 a' n' s' w'' hmem hbelongs
    exact ⟨a', n', s', w'', ht, hresolve, hmem, htag, receiver, hsees.this n' htag⟩
  · cases hfour

end Evaluator

end ScriptCore

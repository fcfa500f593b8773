import ScriptCore.Proofs.Eval.Interlude
import ScriptCore.Proofs.Eval.Limits
import ScriptCore.Proofs.Eval.Reservation
import ScriptCore.Proofs.Eval.Writing

/-!
# The evaluation declares nothing new

A program declares only what its resolution has declared, and the body of a call what the call's own
resolution has: each stretch of an activation's tasks writes cells that are there, unless it assigns to a
name that is not to be found, and the calls in between do not show in the scopes around them. So without
such an assignment, all scopes that were there before the evaluation have the same names after it
(`Evaluator.declarations_reserved`).
-/
namespace ScriptCore

namespace World

/-- The scopes with ids below `n` have the same names, in the same order. -/
def SameNames (n : Nat) (w w' : World) : Prop := ∀ s < n, w'.scopes.ownNames s = w.scopes.ownNames s

instance (n : Nat) : IsTrans World (SameNames n) where
  trans _ _ _ h h' s hs := (h' s hs).trans (h s hs)

end World

/-! ## The tasks of an activation -/

/-- A stretch binds a name implicitly if the name that it assigns to is not to be found from the scope of
the assignment, and is a name of that scope afterwards. -/
def Stretch.bindsImplicitly (s : Stretch) : Bool :=
  match s.task.assignee? with
  | some (scope, name) => !s.start.scopes.has scope name && s.stop.scopes.hasOwn scope name
  | none => false

theorem Stretch.bindsImplicitly_of {s : Stretch} {scope : ScopeId} {name : String}
    (hassignee : s.task.assignee? = some (scope, name))
    (hunfound : s.start.scopes.resolve? scope name = none) (hown : name ∈ s.stop.scopes.ownNames scope) :
    s.bindsImplicitly = true := by
  simp [bindsImplicitly, hassignee, ScopeGraph.has, hunfound, ScopeGraph.hasOwn_iff.mpr hown]

theorem Task.Within.activation?_eq {a : Activation} {g : ScopeGraph} {task : Task} (h : task.Within a g) :
    task.activation? = some a := by
  cases task with
  | call depth callee receiver args => exact h.elim
  | eval b n s => exact congrArg some h.1
  | bind b p value s binding => exact congrArg some h.1
  | loop b l s testFirst => exact congrArg some h.1

/-- Tasks inside scopes from `n` on have links to such scopes. -/
theorem Task.Inside.links {n : Nat} {task : Task} {a : Activation} (h : task.Inside n)
    (ha : task.activation? = some a) : a.links.Within n := by
  cases task with
  | call depth callee receiver args => cases ha
  | eval b node s =>
    cases ha
    exact h.1
  | bind b p value s binding =>
    cases ha
    exact h.1
  | loop b l s testFirst =>
    cases ha
    exact h.1

namespace Evaluator

open Eval

variable {ev : Evaluator} {a : Activation} {g : ScopeGraph} {n : NodeId} {s : ScopeId}

theorem writes_evalNode (hrules : ev.rules = RuleTable.default) (ha : a.Sound)
    (hr : a.links.Reserves a.tree g) (h : a.Evaluates n) :
    (ev.evalNode a n s).Writes (ev.context a) g (Task.assignee? (.eval a n s)) := by
  have hdoes := does_evalNode (S := fun _ => True) (s := s) hrules ev.limits a.links a n trivial
  exact writes_of_does ha (Site.reserved_ofNode hr h ev.limits a.links s) hdoes

/-- A round of a loop goes in the gait of what it evaluates, and hands over to the next one. -/
theorem goes_round {rounds : Loop} {testFirst : Bool} {x : Option (ScopeId × String)} (ha : a.Sound)
    (h : ∀ n ∈ rounds.nodes, a.Evaluates n) :
    (ev.round a rounds s testFirst).Goes (a.writing g x) (a.writing g x).Hands := by
  have hdoes := does_round (S := fun _ => True) (s := s) ev ev.limits a rounds trivial testFirst
  have hx : (Site.ofLoop (ev.context a) ev.limits a.links rounds).Reserved g x :=
    Site.reserved_ofLoop h ev.limits a.links
  refine (writes_of_does ha hx hdoes).mono fun ending hends => ?_
  cases ending with
  | value value => trivial
  | handOver task =>
    obtain rfl : task = .loop a rounds s true := hends
    exact Or.inl ⟨rfl, h⟩

/-- **The tasks of an activation with calls in between.** The tasks write what is reserved in `g`; a call
changes only scopes that are made after it began. -/
theorem between_calls (hrules : ev.rules = RuleTable.default)
    (hresolver : ev.resolver.rules = Hoist.defaultRules) (hhost : ev.host.LeavesScopes) (ha : a.Sound)
    (hr : a.links.Reserves a.tree g) :
    Gait.Between (fun task => a.writing g task.assignee?) (Task.Within a g) Task.IsCall
      (fun w => w.scopes.insideContract) (fun w => g.KeptIn w.scopes) ev where
  goes task w htask := by
    cases task with
    | eval b n s =>
      obtain ⟨rfl, hevaluates⟩ := htask
      exact Gait.hands_value (writes_evalNode hrules ha hr hevaluates) id w
    | bind b p value s binding =>
      obtain ⟨rfl, hpattern, hreserved⟩ := htask
      have hx := Site.reserved_ofPattern (c := ev.context b) ha.tree hpattern hreserved ev.limits b.links value s
      have hdoes := Site.does_bindPattern (S := fun _ => True) (ev.context b) ev.limits b.links p (s := s)
        trivial value binding
      exact (writes_of_does ha hx hdoes).bind (fun _ _ => goes_pure trivial) w
    | call depth callee receiver args => exact htask.elim
    | loop b rounds s testFirst =>
      obtain ⟨rfl, hnodes⟩ := htask
      exact goes_round ha hnodes w
  asks _ _ _ hasks := hasks
  moves _ _ _ _ hkept hmoves := hkept.trans (ScopeGraph.keptIn_of_writes (hmoves hkept))
  keptBy _ := inside_keptBy hrules hresolver hhost
  starts task w hcall := by
    cases task with
    | call depth callee receiver args => exact ⟨.refl, trivial⟩
    | eval b n s => exact hcall.elim
    | bind b p value s binding => exact hcall.elim
    | loop b l s testFirst => exact hcall.elim
  stays w w' hkept hchanges := by
    have hsame {t : ScopeId} (ht : t < w.scopes.size) :=
      ScopeGraph.Changes.sameShape hchanges (Nat.le_refl _) ht
    refine hkept.trans ⟨ScopeGraph.Changes.size_le hchanges, fun t name hname => ?_⟩
    rw [ScopeGraph.ownNames, (hsame (ScopeGraph.lt_size_of_own hname)).names]
    exact hname

/-- In a stretch of the activation's own tasks, what is reserved is written, or a name is bound implicitly. -/
theorem own_stretch {s : Stretch} (hroot : a.links.rootScope < g.size)
    (hpasses : Gait.Passes (fun task => a.writing g task.assignee?) (Task.Within a g)
      (fun w => w.scopes.insideContract) (fun w => g.KeptIn w.scopes) s)
    (hown : s.task.activation? = some a) :
    s.task.Within a g ∧ (s.start.scopes.SameShape s.stop.scopes ∨ s.bindsImplicitly = true) := by
  obtain ⟨htask, hkept, hmoves⟩ | ⟨w₀, hkept, hinside, -, -⟩ := hpasses
  · refine ⟨htask, ?_⟩
    obtain hshape | ⟨scope, name, hassignee, hunfound, hmem⟩ := ScopeGraph.sameShape_or_bound (hmoves hkept)
    · exact Or.inl hshape
    · exact Or.inr (Stretch.bindsImplicitly_of hassignee hunfound hmem)
  · -- the activation's links hold its root scope, which was there before any call in it
    have hle := (Task.Inside.links hinside hown).root
    have hsize := hkept.size_le
    exact absurd (Nat.lt_of_lt_of_le hroot hsize) (Nat.not_lt.mpr hle)

/-- Without implicit bindings, a stretch leaves the names of all scopes that were there at first. -/
theorem stretch_sameNames {s : Stretch} (hroot : a.links.rootScope < g.size)
    (hpasses : Gait.Passes (fun task => a.writing g task.assignee?) (Task.Within a g)
      (fun w => w.scopes.insideContract) (fun w => g.KeptIn w.scopes) s)
    (hbinds : s.task.activation? = some a → s.bindsImplicitly = false) :
    World.SameNames g.size s.start s.stop := by
  cases hpasses with
  | inl hown =>
    have hactivation := hown.1.activation?_eq
    obtain ⟨-, hshape | himplicit⟩ := own_stretch hroot (Or.inl hown) hactivation
    · exact fun t _ => hshape.ownNames_eq t
    · rw [hbinds hactivation] at himplicit
      cases himplicit
  | inr hinside =>
    obtain ⟨w₀, hkept, -, hstart, hstop⟩ := hinside
    intro t ht
    have hlt := Nat.lt_of_lt_of_le ht hkept.size_le
    have hbefore := ScopeGraph.Changes.sameShape hstart (Nat.le_refl _) hlt
    have hafter := ScopeGraph.Changes.sameShape hstop (Nat.le_refl _) hlt
    exact hafter.names.trans hbefore.names.symm

/-- What the evaluation of an activation's root does to the names of scopes, from a world on. -/
structure KeepsNames (ev : Evaluator) (a : Activation) (steps : Nat) (w : World) : Prop where
  /-- the names of all declarations are there already, in the scopes recorded for them -/
  reserved : a.Reserved w.scopes
  /-- no name of any scope is ever removed or moved -/
  ordered : (ev.worlds steps (.eval a a.links.root a.links.rootScope) w).Pairwise World.Prolongs
  /-- without implicit bindings in the activation, the scopes of the first world keep their names -/
  kept : (∀ s ∈ ev.stretchesOf steps (.eval a a.links.root a.links.rootScope) w,
      s.task.activation? = some a → s.bindsImplicitly = false) →
    ∀ w' ∈ ev.worlds steps (.eval a a.links.root a.links.rootScope) w, World.SameNames w.scopes.size w w'
  /-- a stretch of the activation itself makes no cell, unless it binds a name implicitly -/
  writes : ∀ s ∈ ev.stretchesOf steps (.eval a a.links.root a.links.rootScope) w,
    s.task.activation? = some a → s.start.scopes.SameShape s.stop.scopes ∨ s.bindsImplicitly = true
  /-- a pattern is declared where the resolution has declared its names -/
  declares : ∀ s ∈ ev.stretchesOf steps (.eval a a.links.root a.links.rootScope) w,
    ∀ p value scope target, s.task = .bind a p value scope (.declare target) →
      a.tree.bindingNames p ⊆ w.scopes.ownNames target
  /-- the world that an evaluation ends in, with a value or with an error, is one of its worlds -/
  ended : ∀ outcome w', ev.perform steps (.eval a a.links.root a.links.rootScope) w = .ended (outcome, w') →
    w' ∈ ev.worlds steps (.eval a a.links.root a.links.rootScope) w

section Runs

variable (hrules : ev.rules = RuleTable.default) (hresolver : ev.resolver.rules = Hoist.defaultRules)
  (hhost : ev.host.LeavesScopes)

include hrules hresolver hhost in
/-- An activation with all that its tree declares keeps the names of scopes. -/
theorem keepsNames_of_reserved {w : World} (ha : a.Sound) (hroot : a.Evaluates a.links.root)
    (hr : a.Reserved w.scopes) (steps : Nat) : ev.KeepsNames a steps w := by
  have htask : (Task.eval a a.links.root a.links.rootScope).Within a w.scopes := ⟨rfl, hroot⟩
  have hpasses : ∀ s ∈ ev.stretchesOf steps _ _, _ :=
    stretchesOf_between (between_calls hrules hresolver hhost ha hr.names) htask (.refl w.scopes)
  refine ⟨hr, ?_, ?_, ?_, ?_, ?_⟩
  · apply pairwise_worlds
    intro s hs
    exact World.prolongs_of_effects hhost (stretches_effects hrules hresolver s hs)
  · intro hbinds
    have hworlds := pairwise_worlds (R := World.SameNames w.scopes.size) fun s hs =>
      stretch_sameNames hr.root (hpasses s hs) (hbinds s hs)
    obtain ⟨hlater, -⟩ := List.pairwise_cons.mp hworlds
    intro w' hw'
    obtain rfl | hw' := List.mem_cons.mp hw'
    · exact fun _ _ => rfl
    · exact hlater w' hw'
  · exact fun s hs hown => (own_stretch hr.root (hpasses s hs) hown).2
  · intro s hs p value at_ target htask
    have hown : s.task.activation? = some a := by rw [htask, Task.activation?]
    obtain ⟨hwithin, -⟩ := own_stretch hr.root (hpasses s hs) hown
    rw [htask] at hwithin
    exact hwithin.2.2
  · exact fun outcome w' h => mem_worlds_of_ended h

include hrules hresolver hhost in
/-- So does each activation whose root is evaluated in the run of such an activation. -/
theorem keepsNames_of_performed {b : Activation} {w w' : World} {j : Jumps} {steps : Nat}
    (hclosures : ev.host.KeepsClosures) (hw : w.Sound)
    (hfits : (Task.eval a a.links.root a.links.rootScope).Fits j) (hr : a.Reserved w.scopes)
    (hmem : (.eval b b.links.root b.links.rootScope, w') ∈
      ev.performed steps (.eval a a.links.root a.links.rootScope) w) (later : Nat) :
    ev.KeepsNames b later w' := by
  have horderly {entry : Task × World}
      (hentry : entry ∈ ev.performed steps (.eval a a.links.root a.links.rootScope) w) :
      entry.2.Sound ∧ ∃ inner, entry.1.Fits inner :=
    Contract.mem_performed (orderly_keptBy hrules hresolver hclosures) hw ⟨j, hfits⟩ hentry
  have hstart : reservedCourse.asks (.eval a a.links.root a.links.rootScope) w := by
    rintro _ ⟨⟩
    exact hr
  have hb := reserved_performed hrules hresolver hhost (fun _ hentry => (horderly hentry).1) hstart
    _ hmem b rfl
  obtain ⟨-, inner, hinner⟩ := horderly hmem
  obtain ⟨hsound, hroot⟩ := Activation.evaluates_of_fits hinner
  exact keepsNames_of_reserved hrules hresolver hhost hsound hroot hb later

include hresolver in
theorem reserved_of_resolve {t : Tree} {scope : ScopeId} {w w₁ : World} {r : Resolved} (ht : t.Proper)
    (hscope : scope < w.scopes.size) (hresolve : ev.resolve t scope w = (.ok r, w₁)) :
    Activation.Reserved ⟨r.tree, r.links, 0⟩ w₁.scopes := by
  rw [resolve] at hresolve
  split at hresolve
  next state hstate =>
    cases hresolve
    obtain ⟨hnames, hroot⟩ := Resolver.resolve_reserves hresolver ht hscope hstate
    exact ⟨hnames, hroot⟩
  · cases hresolve

end Runs

/-- **Evaluation declares nothing that the resolution has not declared.** For every imported grammatical
program and every root scope: the resolution reserves the names of all declarators, function declarations
and catch parameters in the scopes that it records for them; evaluating the program removes and reorders
nothing, writes these cells, and makes new ones in no scope that was there unless it binds a name
implicitly. So it is with each call in between, from the world in which its body is evaluated, if all
closures are those of grammatical functions. -/
theorem declarations_reserved (ev : Evaluator) (hrules : ev.rules = RuleTable.default)
    (hresolver : ev.resolver.rules = Hoist.defaultRules) (hhost : ev.host.LeavesScopes) (j : Json) (t : Tree)
    (ht : Tree.ofJson j = .ok t) (hgrammar : t.Grammatical) (scope : ScopeId) (w w₁ : World)
    (hscope : scope < w.scopes.size) (r : Resolved) (hresolve : ev.resolve t scope w = (.ok r, w₁))
    (steps : Nat) :
    ev.KeepsNames ⟨r.tree, r.links, 0⟩ steps w₁ ∧
      (w.Sound → ev.host.KeepsClosures → ∀ b w₂, (.eval b b.links.root b.links.rootScope, w₂) ∈
        ev.performed steps (.eval ⟨r.tree, r.links, 0⟩ r.links.root r.links.rootScope) w₁ →
          ∀ later, ev.KeepsNames b later w₂) := by
  have hproper := Tree.ofJson_proper ht
  obtain ⟨hfits, hsame⟩ := fits_program hresolver hproper hgrammar hresolve
  obtain ⟨ha, hroot⟩ := Activation.evaluates_of_fits hfits
  have hr := reserved_of_resolve hresolver hproper hscope hresolve
  constructor
  · exact keepsNames_of_reserved hrules hresolver hhost ha hroot hr steps
  · intro hw hclosures b w₂ hmem
    exact keepsNames_of_performed hrules hresolver hhost hclosures (hw.of_closures hsame) hfits hr hmem

end Evaluator

/-- `const list = [1]; for (const item of list) { function f(x) { const y = x; return y; } f(item); }
try { throw list; } catch ([e]) { e = true; }` -/
def declaringProgram : Json :=
  let block (statements : List Json) : Json := .ofNode "BlockStatement" [("body", .array statements)]
  let expression (e : Json) : Json := .ofNode "ExpressionStatement" [("expression", e)]
  let const (declarator : List (String × Json)) : Json := .ofNode "VariableDeclaration"
    [("kind", .string "const"), ("declarations", .array [.ofNode "VariableDeclarator" declarator])]
  let list := Json.ofNode "ArrayExpression"
    [("elements", .array [.ofNode "Literal" [("value", .integer 1)]])]
  let function := Json.ofNode "FunctionDeclaration" [("id", .ofName "f"), ("params", .array [.ofName "x"]),
    ("body", block [const [("id", .ofName "y"), ("init", .ofName "x")],
      .ofNode "ReturnStatement" [("argument", .ofName "y")]])]
  let call := Json.ofNode "CallExpression" [("callee", .ofName "f"), ("arguments", .array [.ofName "item"])]
  let loop := Json.ofNode "ForOfStatement" [("left", const [("id", .ofName "item")]),
    ("right", .ofName "list"), ("body", block [function, expression call])]
  let assignment := Json.ofNode "AssignmentExpression" [("operator", .string "="), ("left", .ofName "e"),
    ("right", .ofNode "Literal" [("value", .bool true)])]
  let handler := Json.ofNode "CatchClause"
    [("param", .ofNode "ArrayPattern" [("elements", .array [.ofName "e"])]),
      ("body", block [expression assignment])]
  let attempt := Json.ofNode "TryStatement"
    [("block", block [.ofNode "ThrowStatement" [("argument", .ofName "list")]]), ("handler", handler)]
  .ofNode "Program" [("body", .array [const [("id", .ofName "list"), ("init", list)], loop, attempt])]

namespace Evaluator

/-- Whether the evaluation of an activation's root ends without binding a name implicitly, its scope having
the given names at first. -/
def endsDeclared (a : Activation) (w : World) (names : List String) : Bool :=
  ((standard.stretchesOf 90 (.eval a a.links.root a.links.rootScope) w).all fun s => !s.bindsImplicitly) &&
    w.scopes.ownNames a.links.rootScope == names &&
    match standard.perform 90 (.eval a a.links.root a.links.rootScope) w with
    | .ended _ => true
    | _ => false

/-- Then its scope has these names at the end. -/
theorem ended_of_endsDeclared {w : World} {names : List String} (h : endsDeclared a w names = true)
    (hkeeps : standard.KeepsNames a 90 w) : ∃ outcome w',
      standard.perform 90 (.eval a a.links.root a.links.rootScope) w = .ended (outcome, w') ∧
        w'.scopes.ownNames a.links.rootScope = names := by
  simp only [endsDeclared, Bool.and_eq_true, List.all_eq_true, Bool.not_eq_true', beq_iff_eq] at h
  obtain ⟨⟨hbinds, hnames⟩, hended⟩ := h
  split at hended
  next ending hrun =>
    obtain ⟨outcome, w'⟩ := ending
    have hkept := hkeeps.kept (fun s hs _ => hbinds s hs) w' (hkeeps.ended _ w' hrun) _ hkeeps.reserved.root
    exact ⟨outcome, w', hrun, hkept.trans hnames⟩
  · cases hended

/-- Whether a task evaluates the body of `f`, where `endsDeclared` says so. -/
def isDeclaredBody (carried : Task × World) : Bool :=
  match carried.1 with
  | .eval b n s => b.depth == 1 && n == b.links.root && s == b.links.rootScope &&
    endsDeclared b carried.2 ["y", "this", "arguments", "x"]
  | _ => false

theorem declarations_reserved_constructs : ∃ t r w₁ outcome w₂ b w₃ outcome' w₄,
    Tree.ofJson declaringProgram = .ok t ∧
    standard.resolve t 0 (World.newRootScope {}).2 = (.ok r, w₁) ∧
    standard.perform 90 (.eval ⟨r.tree, r.links, 0⟩ r.links.root r.links.rootScope) w₁ =
      .ended (outcome, w₂) ∧
    w₂.scopes.ownNames r.links.rootScope = ["list", "item", "f"] ∧
    (.eval b b.links.root b.links.rootScope, w₃) ∈
      standard.performed 90 (.eval ⟨r.tree, r.links, 0⟩ r.links.root r.links.rootScope) w₁ ∧
    b.depth = 1 ∧
    standard.perform 90 (.eval b b.links.root b.links.rootScope) w₃ = .ended (outcome', w₄) ∧
    w₄.scopes.ownNames b.links.rootScope = ["y", "this", "arguments", "x"] := by
  obtain ⟨t, ht, hcheck⟩ := Tree.exists_ofJson (j := declaringProgram)
    (p := fun t => t.derivesWithin 12 .program t.root && standard.resolvesTo t fun r w =>
      endsDeclared ⟨r.tree, r.links, 0⟩ w ["list", "item", "f"] &&
        (standard.performed 90 (.eval ⟨r.tree, r.links, 0⟩ r.links.root r.links.rootScope) w).any
          isDeclaredBody)
    (by decide +kernel)
  rw [Bool.and_eq_true] at hcheck
  obtain ⟨hgrammar, hfound⟩ := hcheck
  obtain ⟨r, w₁, hresolve, hends⟩ := exists_of_resolvesTo hfound
  rw [Bool.and_eq_true] at hends
  obtain ⟨hprogram, hbody⟩ := hends
  obtain ⟨hkeeps, hcalls⟩ := declarations_reserved standard standard_rules standard_resolver
    Host.standard_leavesScopes declaringProgram t ht (Tree.derives_of_within hgrammar) 0
    (World.newRootScope {}).2 w₁ (by decide) r hresolve 90
  obtain ⟨outcome, w₂, hrun, hnames⟩ := ended_of_endsDeclared hprogram hkeeps
  obtain ⟨⟨task, w₃⟩, hmem, hbody⟩ := List.any_eq_true.mp hbody
  cases task with
  | eval b n s =>
    simp only [isDeclaredBody, Bool.and_eq_true, beq_iff_eq] at hbody
    obtain ⟨⟨⟨hdepth, rfl⟩, rfl⟩, hdeclared⟩ := hbody
    have hcall := hcalls (World.sound_of_no_closures rfl) Host.standard_keepsClosures b w₃ hmem 90
    obtain ⟨outcome', w₄, hrun', hnames'⟩ := ended_of_endsDeclared hdeclared hcall
    exact ⟨t, r, w₁, outcome, w₂, b, w₃, outcome', w₄, ht, hresolve, hrun, hnames, hmem, hdepth, hrun',
      hnames'⟩
  | _ => cases hbody

end Evaluator

end ScriptCore

import ScriptCore.Eval.Step
import ScriptCore.Proofs.Tree.Footprint
import ScriptCore.Proofs.Tree.Grammar

/-!
# What a step may do

A rule of the evaluator works at a site: in a context, for a node and in a scope. It asks for nodes
under its own, makes closures of function nodes, declares and assigns the names of its footprint, and goes
on after a failure only where there is a finalizer. `Site.Does` says so of a step, and since it says it in
one way for all rules, what follows from it is proved once for all rules: by induction on how the step is
built.

The relation is between two steps: the one in the context and the same one under other limits and with
other links. They differ in the bound that a write to an array is checked against, and in the scopes that
are read off the links.
-/
namespace ScriptCore

/-- The loops that may go on for as long as their test says. -/
def Tag.unboundedLoops : List String := ["ForStatement", "WhileStatement", "DoWhileStatement"]

/-- The nodes that the rounds of a loop evaluate. -/
def Loop.nodes (rounds : Loop) : List NodeId := rounds.test.toList ++ rounds.body :: rounds.update.toList

namespace Loop

variable {rounds : Loop} {n : NodeId}

theorem mem_nodes : n ∈ rounds.nodes ↔ rounds.test = some n ∨ n = rounds.body ∨ rounds.update = some n := by
  simp [nodes]

theorem test_mem_nodes (h : rounds.test = some n) : n ∈ rounds.nodes := mem_nodes.mpr (Or.inl h)

theorem body_mem_nodes (rounds : Loop) : rounds.body ∈ rounds.nodes := mem_nodes.mpr (Or.inr (Or.inl rfl))

theorem update_mem_nodes (h : rounds.update = some n) : n ∈ rounds.nodes := mem_nodes.mpr (Or.inr (Or.inr h))

end Loop

/-- A closure under a name of its own leaves the scopes alone. -/
theorem Context.named_scopes (w : World) (name : String) (id : ClosureId) :
    (named w name id).2.scopes = w.scopes := by
  rw [named]
  split
  · split <;> rfl
  · rfl

/-- Where a step works and what it may do there. -/
structure Site where
  context : Context
  /-- limits that the context might have instead -/
  limits : Limits
  /-- links that the context might have instead -/
  links : Links
  /-- the nodes whose values may be asked for -/
  asks : NodeId → Prop
  /-- the patterns that may be bound, with their names declared or not -/
  binds : NodeId → Bool → Prop := fun _ _ => False
  /-- the loops whose rounds may be asked for -/
  loops : Loop → Prop := fun _ => False
  /-- there may be more to do after a failure -/
  recovers : Prop := False
  /-- the arrow functions that may be made, over the given scopes -/
  arrows : NodeId → ScopeId → Prop := fun _ _ => False
  /-- the blocks whose scope may be read off the links -/
  opens : NodeId → Prop := fun _ => False
  /-- the nodes whose target may be read off the links, with the names that go there -/
  declares : NodeId → List String → Prop := fun _ _ => False
  /-- the blocks in whose scopes names may be declared -/
  catches : NodeId → List String → Prop := fun _ _ => False
  /-- the names that may be declared in a scope that is given -/
  gives : List String → ScopeId → Prop := fun _ _ => False
  /-- the names that may be assigned to, looked up from a scope -/
  assigns : ScopeId → String → Prop := fun _ _ => False

namespace Site

/-- The context under the other limits and with the other links. -/
def other (x : Site) : Context := { x.context with limits := x.limits, links := x.links }

/-- The site of a node's rule. -/
def ofNode (c : Context) (limits : Limits) (links : Links) (n : NodeId) (s : ScopeId) : Site where
  context := c
  limits := limits
  links := links
  asks m := m ∈ c.tree.evaluated n
  binds := c.tree.Binds n
  loops rounds := c.tree.tag n ∈ Tag.unboundedLoops ∧ rounds.nodes ⊆ c.tree.evaluated n
  recovers := c.tree.tag n = "TryStatement" ∧ (c.tree.child? n "finalizer").isSome
  arrows m t := m = n ∧ t = s
  opens block := block ∈ c.tree.openedBlocks n
  declares := c.tree.Declares n
  catches := c.tree.Catches n
  assigns t name := t = s ∧ (c.tree.assignee? n).bind c.tree.identifierName? = some name

@[simp] theorem ofNode_context (c : Context) (limits : Limits) (links : Links) (n : NodeId) (s : ScopeId) :
    (ofNode c limits links n s).context = c := rfl

/-- The site of the binding of a pattern. -/
def ofPattern (c : Context) (limits : Limits) (links : Links) (p : NodeId) (s : ScopeId)
    (binding : Binding) : Site where
  context := c
  limits := limits
  links := links
  asks m := m ∈ c.tree.patternValues p
  binds q declares := q ∈ c.tree.subpatterns p ∧ declares = binding.declares
  gives names target := binding = .declare target ∧
    ((∃ q ∈ c.tree.subpatterns p, names = c.tree.bindingNames q) ∨ names = (c.tree.identifierName? p).toList)
  assigns t name := t = s ∧ binding = .assign ∧ c.tree.identifierName? p = some name

/-- The site of what a call does in its scope. -/
def ofCall (c : Context) (limits : Limits) (links : Links) (closure : Closure) (s : ScopeId) : Site where
  context := c
  limits := limits
  links := links
  asks _ := True
  binds p declares := declares = true ∧ ∃ param ∈ closure.params, p = param.target
  gives names target := target = s ∧ ∃ param ∈ closure.params,
    names = c.tree.bindingNames param.target ∨ names = param.name.toList

/-- The site of the rounds of a loop. -/
def ofLoop (c : Context) (limits : Limits) (links : Links) (rounds : Loop) : Site where
  context := c
  limits := limits
  links := links
  asks m := m ∈ rounds.nodes

/-- A scope of a block: the one of the links, if they have one. -/
def IsOwn (x : Site) (block : NodeId) (own : ScopeId) : Prop :=
  ∀ s, x.context.links.scope? block = some s → own = s

/-- Where names may be declared: the scope under the links of the context, and under the other ones. -/
inductive Lands (x : Site) (S : ScopeId → Prop) : List String → ScopeId → ScopeId → Prop
  | target {d names s} (hd : x.declares d names) (hs : S s) :
    Lands x S names (x.context.declarationTarget d s) (x.other.declarationTarget d s)
  | block {body names own} (hbody : x.catches body names) (hs : S own) (hown : x.IsOwn body own) :
    Lands x S names own own
  | given {names t} (h : x.gives names t) : Lands x S names t t

/-- How a pattern may be bound. -/
inductive Aims (x : Site) (S : ScopeId → Prop) (p : NodeId) : Binding → Binding → Prop
  | declare {t t'} (h : x.Lands S (x.context.tree.bindingNames p) t t') :
    Aims x S p (.declare t) (.declare t')
  | assign : Aims x S p .assign .assign

/-- What a step does, in scopes that satisfy `S`, coming to a value that satisfies `ok`. -/
inductive Does (x : Site) : {α : Type} → (S : ScopeId → Prop) → (ok : α → Prop) →
    Eval α → Eval α → Prop
  | pure {α S ok} {a : α} (h : ok a) : Does x S ok (pure a) (pure a)
  | abrupt {α S} {ok : α → Prop} (e : Abrupt) : Does x S ok (Eval.abrupt e) (Eval.abrupt e)
  | reads {α S} (f : World → α) : Does x S (fun _ => True) (Eval.reads f) (Eval.reads f)
  | checks {α S} (f : World → Except Cause α) :
    Does x S (fun _ => True) (Eval.checks f) (Eval.checks f)
  | newArray {S} (items : Array Value) : Does x S (fun _ => True)
    (Eval.makes fun w => w.newArray items) (Eval.makes fun w => w.newArray items)
  | newObject {S} (fields : World → Dict Value) : Does x S (fun _ => True)
    (Eval.makes fun w => w.newObject (fields w)) (Eval.makes fun w => w.newObject (fields w))
  /-- a closure of a function node over a scope at hand -/
  | newClosure {S n s name} {closure : Closure} (hs : S s)
    (hfunction : Tag.isFunction (x.context.tree.tag n) = true)
    (hclosure : Closure.ofNode x.context.tree n s name = .ok closure)
    (harrow : x.context.tree.is n "ArrowFunctionExpression" = true → x.arrows n s) :
    Does x S (fun _ => True)
      (Eval.makes fun w => w.newClosure closure) (Eval.makes fun w => w.newClosure closure)
  /-- a closure under a name of its own -/
  | named {S} (name : String) (id : ClosureId) : Does x S (fun _ => True)
    (Eval.makes fun w => Context.named w name id) (Eval.makes fun w => Context.named w name id)
  | declare {S names name t t'} (h : x.Lands S names t t') (hname : name ∈ names) (value : Value) :
    Does x S (fun _ => True)
      (Eval.scopes fun g => g.declare t name value) (Eval.scopes fun g => g.declare t' name value)
  | assign {S s name} (h : x.assigns s name) (value : Value) : Does x S (fun _ => True)
      (Eval.scopes fun g => g.set s name value) (Eval.scopes fun g => g.set s name value)
  | reset {S names t t'} (h : x.Lands S names t t') :
    Does x S (fun _ => True) (Context.resetNames t names) (Context.resetNames t' names)
  /-- the one place where limits are read -/
  | write {S} (base : Value) (key : String) (value : Value) : Does x S (fun _ => True)
    (Eval.risks fun w => w.setProperty? base key value x.context.limits.maxArrayLength)
    (Eval.risks fun w => w.setProperty? base key value x.limits.maxArrayLength)
  | delete {S} (base : Value) (key : String) : Does x S (fun _ => True)
    (Eval.attempts fun w => w.deleteProperty base key)
    (Eval.attempts fun w => w.deleteProperty base key)
  | eval {S n s} (hn : x.asks n) (hs : S s) :
    Does x S (fun _ => True) (x.context.eval n s) (x.other.eval n s)
  | bindTo {S p s binding binding'} (value : Value) (hbinds : x.binds p binding.declares) (hs : S s)
    (haims : x.Aims S p binding binding') : Does x S (fun _ => True)
      (x.context.bind p value s binding) (x.other.bind p value s binding')
  | call {S} (callee receiver : Value) (args : List Value) : Does x S (fun _ => True)
    (x.context.call callee receiver args) (x.other.call callee receiver args)
  | loop {S rounds s} (testFirst : Bool) (h : x.loops rounds) (hs : S s) : Does x S (fun _ => True)
    (x.context.loop rounds s testFirst) (x.other.loop rounds s testFirst)
  | bind {α β S} {mid : β → Prop} {ok : α → Prop} {m m' : Eval β} {f f' : β → Eval α}
    (hm : Does x S mid m m') (hf : ∀ b, mid b → Does x S ok (f b) (f' b)) :
    Does x S ok (m >>= f) (m' >>= f')
  /-- go on with an outcome; failures pass, unless there is more to do -/
  | caught {α β S} {ok : α → Prop} {m m' : Eval β} {f f' : Except Abrupt β → Eval α}
    (hm : Does x S (fun _ => True) m m') (hf : ∀ outcome, Does x S ok (f outcome) (f' outcome))
    (hpass : ¬ x.recovers → ∀ e,
      f (.error (.failure e)) = .abrupt (.failure e) ∧ f' (.error (.failure e)) = .abrupt (.failure e)) :
    Does x S ok (m.catching >>= f) (m'.catching >>= f')
  | raisedAt {α S} {ok : α → Prop} {m m' : Eval α} (n : NodeId) (hm : Does x S ok m m') :
    Does x S ok (m.raisedAt n) (m'.raisedAt n)
  /-- go on in the scope of a block -/
  | opened {α S n s} {ok : α → Prop} {f f' : ScopeId → Eval α} (hn : x.opens n) (hs : S s)
    (hf : ∀ own, x.IsOwn n own → Does x (fun t => S t ∨ t = own) ok (f own) (f' own)) :
    Does x S ok (x.context.blockScope n s >>= f) (x.other.blockScope n s >>= f')

/-- All that a step declares, assigns to or binds is a target. -/
structure Aimed (x : Site) : Prop where
  binds : ∀ {p declares}, x.binds p declares → x.context.tree.IsTarget p
  declares : ∀ {d names name}, x.declares d names → name ∈ names → x.context.tree.TargetName name
  catches : ∀ {body names name}, x.catches body names → name ∈ names → x.context.tree.TargetName name
  gives : ∀ {names t name}, x.gives names t → name ∈ names → x.context.tree.TargetName name
  assigns : ∀ {s name}, x.assigns s name → x.context.tree.TargetName name

theorem aimed_ofNode (c : Context) (limits : Limits) (links : Links) (n : NodeId) (s : ScopeId) :
    (ofNode c limits links n s).Aimed where
  binds h := h.isTarget
  declares h hname := h.targetName hname
  catches h hname := h.targetName hname
  gives h _ := h.elim
  assigns h := by
    obtain ⟨target, htarget, hname⟩ := Option.bind_eq_some_iff.mp h.2
    exact Tree.targetName_of (Tree.isTarget_of_assignee htarget) hname

theorem aimed_ofPattern (c : Context) (limits : Limits) (links : Links) {p : NodeId} (s : ScopeId)
    (binding : Binding) (hp : c.tree.IsTarget p) : (ofPattern c limits links p s binding).Aimed where
  binds h := Tree.isTarget_of_subpatterns h.1
  declares h _ := h.elim
  catches h _ := h.elim
  gives h hname := by
    obtain ⟨-, ⟨q, hq, rfl⟩ | rfl⟩ := h
    · exact Tree.targetName_of_bindingNames (Tree.isTarget_of_subpatterns hq) hname
    · exact Tree.targetName_of hp (Option.mem_toList.mp hname)
  assigns h := Tree.targetName_of hp h.2.2

theorem aimed_ofLoop (c : Context) (limits : Limits) (links : Links) (rounds : Loop) :
    (ofLoop c limits links rounds).Aimed where
  binds h := h.elim
  declares h _ := h.elim
  catches h _ := h.elim
  gives h _ := h.elim
  assigns h := h.elim

theorem Lands.targetName {x : Site} (hx : x.Aimed) {S : ScopeId → Prop} {names : List String} {t t' : ScopeId}
    (h : x.Lands S names t t') {name : String} (hname : name ∈ names) : x.context.tree.TargetName name := by
  cases h with
  | target hd hs => exact hx.declares hd hname
  | block hbody hs hown => exact hx.catches hbody hname
  | given h => exact hx.gives h hname

/-- The other links say the same of what the site reads of them. -/
structure Agrees (x : Site) : Prop where
  opens : ∀ {n}, x.opens n → x.links.scope? n = x.context.links.scope? n
  declares : ∀ {d names}, x.declares d names → x.links.target? d = x.context.links.target? d

theorem Lands.eq_of_agrees {x : Site} (hx : x.Agrees) {S : ScopeId → Prop} {names : List String}
    {t t' : ScopeId} (h : x.Lands S names t t') : t' = t := by
  cases h with
  | target hd hs =>
    have htarget : x.other.links.target? _ = x.context.links.target? _ := hx.declares hd
    rw [Context.declarationTarget, Context.declarationTarget, htarget]
  | block hbody hs hown => rfl
  | given h => rfl

theorem Aims.eq_of_agrees {x : Site} (hx : x.Agrees) {S : ScopeId → Prop} {p : NodeId}
    {binding binding' : Binding} (h : x.Aims S p binding binding') : binding' = binding := by
  cases h with
  | declare hlands => rw [hlands.eq_of_agrees hx]
  | assign => rfl

/-- The scope of a block is the one of its links, in a world that stays, or a fresh one beneath the scope
at hand. -/
theorem blockScope_cases (c : Context) (n : NodeId) (s : ScopeId) (w : World) :
    (∃ own, c.links.scope? n = some own ∧ c.blockScope n s w = .done (.ok own) w) ∨
      c.links.scope? n = none ∧ c.blockScope n s w =
        .done (.ok w.scopes.size) { w with scopes := (w.scopes.addChild s).2 } := by
  cases hscope : c.links.scope? n with
  | some own =>
    left
    exact ⟨own, rfl, by rw [Context.blockScope, hscope]; rfl⟩
  | none =>
    right
    exact ⟨rfl, by rw [Context.blockScope, hscope]; rfl⟩

theorem blockScope_done (c : Context) (n : NodeId) (s : ScopeId) (w : World) :
    ∃ own w', c.blockScope n s w = .done (.ok own) w' := by
  obtain ⟨own, -, heq⟩ | ⟨-, heq⟩ := blockScope_cases c n s w
  · exact ⟨_, _, heq⟩
  · exact ⟨_, _, heq⟩

/-- So what opens a block goes on in one of these. -/
theorem openBlock_cases {α : Type} (c : Context) (n : NodeId) (s : ScopeId) (f : ScopeId → Eval α)
    (w : World) :
    (∃ own, c.links.scope? n = some own ∧ (c.blockScope n s >>= f) w = f own w) ∨
      c.links.scope? n = none ∧
        (c.blockScope n s >>= f) w = f w.scopes.size { w with scopes := (w.scopes.addChild s).2 } := by
  have hbind : (c.blockScope n s >>= f) w = (c.blockScope n s w).andThen f := rfl
  rw [hbind]
  obtain ⟨own, hown, heq⟩ | ⟨hnone, heq⟩ := blockScope_cases c n s w
  · rw [heq]
    exact Or.inl ⟨own, hown, rfl⟩
  · rw [heq]
    exact Or.inr ⟨hnone, rfl⟩

theorem isOwn_of_some {x : Site} {n : NodeId} {own : ScopeId} (h : x.context.links.scope? n = some own) :
    x.IsOwn n own := fun _ hs => Option.some.inj (h.symm.trans hs)

theorem isOwn_of_none {x : Site} {n : NodeId} (h : x.context.links.scope? n = none) (own : ScopeId) :
    x.IsOwn n own := fun _ hs => nomatch h.symm.trans hs

/-- Where links agree, both steps that open a block go on in the same scope and world. -/
theorem Agrees.openBlock {α : Type} {x : Site} (hx : x.Agrees) {n : NodeId} (hn : x.opens n) (s : ScopeId)
    (f f' : ScopeId → Eval α) (w : World) : ∃ own w', x.IsOwn n own ∧ w'.closures = w.closures ∧
      (x.context.blockScope n s >>= f) w = f own w' ∧ (x.other.blockScope n s >>= f') w = f' own w' := by
  have hscope : x.other.links.scope? n = x.context.links.scope? n := hx.opens hn
  have hsame : x.other.blockScope n s = x.context.blockScope n s := by
    rw [Context.blockScope, Context.blockScope, hscope]
  have hbind (f : ScopeId → Eval α) :
      (x.context.blockScope n s >>= f) w = (x.context.blockScope n s w).andThen f := rfl
  rw [hsame, hbind, hbind]
  obtain ⟨own, hown, heq⟩ | ⟨hnone, heq⟩ := blockScope_cases x.context n s w
  · rw [heq]
    exact ⟨own, w, isOwn_of_some hown, rfl, rfl, rfl⟩
  · rw [heq]
    exact ⟨_, { w with scopes := (w.scopes.addChild s).2 }, isOwn_of_none hnone _, rfl, rfl, rfl⟩

variable {x : Site} {S : ScopeId → Prop} {n : NodeId} {s : ScopeId}

/-! ## Small steps -/

theorem does_fail {α : Type} {ok : α → Prop} (cause : Cause) :
    x.Does S ok (Eval.fail cause) (Eval.fail cause) := .abrupt _

theorem Does.map {α β : Type} {mid : β → Prop} {ok : α → Prop} {m m' : Eval β} (hm : x.Does S mid m m')
    (f : β → α) (hf : ∀ b, mid b → ok (f b)) : x.Does S ok (f <$> m) (f <$> m') :=
  hm.bind fun b hb => .pure (hf b hb)

/-- What follows a required child may take it from the field. -/
theorem does_require {α : Type} {ok : α → Prop} {key : String} {f f' : NodeId → Eval α}
    (h : ∀ child, x.context.tree.child? n key = some child → x.Does S ok (f child) (f' child)) :
    x.Does S ok (x.context.require n key >>= f) (x.other.require n key >>= f') := by
  have hsame : x.other.require n key = x.context.require n key := rfl
  rw [hsame, Context.require]
  split
  next child hchild => exact h child hchild
  · exact .abrupt _

theorem does_operator {α : Type} {ok : α → Prop} {f f' : String → Eval α}
    (h : ∀ op, x.Does S ok (f op) (f' op)) :
    x.Does S ok (x.context.operator n >>= f) (x.other.operator n >>= f') := by
  have hsame : x.other.operator n = x.context.operator n := rfl
  rw [hsame, Context.operator]
  split
  next op _ => exact h op
  · exact .abrupt _

theorem does_createClosure (hs : S s) (hfunction : Tag.isFunction (x.context.tree.tag n) = true)
    (harrow : x.context.tree.is n "ArrowFunctionExpression" = true → x.arrows n s)
    (name : Option String) : x.Does S (fun _ => True) (x.context.createClosure n s name)
      (x.other.createClosure n s name) := by
  have hsame : x.other.createClosure n s name = x.context.createClosure n s name := rfl
  rw [hsame, Context.createClosure]
  cases hclosure : Closure.ofNode x.context.tree n s name with
  | ok closure => exact .newClosure hs hfunction hclosure harrow
  | error cause => exact .abrupt _

end Site

end ScriptCore

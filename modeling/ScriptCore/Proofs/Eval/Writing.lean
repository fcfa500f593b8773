import ScriptCore.Proofs.Eval.Entry
import ScriptCore.Proofs.Eval.Evaluated
import ScriptCore.Proofs.Eval.Stretch

/-!
# Writing what is reserved

The gait of an activation whose links reserve its names: a stretch writes cells that are there, or assigns to
the one name that its task assigns to (`Task.assignee?`). It asks for nodes that the activation evaluates, for
patterns whose names are reserved in the scope that they declare in, and for calls. A site whose names are
reserved goes in it (`Eval.writes_of_does`).
-/
namespace ScriptCore

/-! ## The gait -/

/-- The names of a pattern are reserved in the scope that the binding declares in. -/
def Binding.Reserved (t : Tree) (g : ScopeGraph) (p : NodeId) : Binding → Prop
  | .declare target => t.bindingNames p ⊆ g.ownNames target
  | .assign => True

/-- The name that the task assigns to itself, with the scope that it is looked up from. -/
def Task.assignee? : Task → Option (ScopeId × String)
  | .eval a n s =>
    let target :=
      if a.tree.is n "AssignmentExpression" then a.tree.child? n "left"
      else if a.tree.is n "UpdateExpression" then a.tree.child? n "argument"
      else none
    (target.bind a.tree.identifierName?).map fun name => (s, name)
  | .bind a p _ s .assign => (a.tree.identifierName? p).map fun name => (s, name)
  | _ => none

/-- A task of an activation that declares what is reserved in a graph. -/
def Task.Within (a : Activation) (g : ScopeGraph) : Task → Prop
  | .eval b n _ => b = a ∧ a.Evaluates n
  | .bind b p _ _ binding =>
    b = a ∧ a.tree.Derives (.pattern binding.declares) p ∧ binding.Reserved a.tree g p
  | .call _ _ _ _ => False
  | .loop b rounds _ _ => b = a ∧ ∀ n ∈ rounds.nodes, a.Evaluates n

namespace ScopeGraph

/-- Any number of writes keep what is there. -/
theorem keptIn_of_writes {assignee : Option (ScopeId × String)} {g g' : ScopeGraph}
    (h : Relation.ReflTransGen (Writes assignee) g g') : g.KeptIn g' := by
  induction h with
  | refl => exact .refl g
  | tail _ hstep ih => exact ih.trans hstep.keptIn

end ScopeGraph

/-- In worlds that have what is reserved, cells that are there are written, and the assignee. -/
def Activation.writing (a : Activation) (g : ScopeGraph) (x : Option (ScopeId × String)) : Gait where
  moves w w' := g.KeptIn w.scopes → Relation.ReflTransGen (ScopeGraph.Writes x) w.scopes w'.scopes
  asks next := next.Within a g ∨ next.IsCall
  refl _ _ := .refl
  trans h₁ h₂ hkept := (h₁ hkept).trans (h₂ (hkept.trans (ScopeGraph.keptIn_of_writes (h₁ hkept))))

/-! ## Steps -/

namespace Eval

variable {α : Type} {c : Context} {g : ScopeGraph} {x : Option (ScopeId × String)}

/-- A step goes in the gait of its activation. -/
abbrev Writes (c : Context) (g : ScopeGraph) (x : Option (ScopeId × String)) (m : Eval α) : Prop :=
  m.Goes (c.writing g x) fun _ => True

theorem moves_of_scopes_eq {w w' : World} (h : w'.scopes = w.scopes) : (c.writing g x).moves w w' := by
  intro _
  rw [h]

theorem moves_of_sameShape {w : World} {f : ScopeGraph → ScopeGraph}
    (h : g.KeptIn w.scopes → w.scopes.SameShape (f w.scopes)) :
    (c.writing g x).moves w (w.modifyScopes f) := fun hkept => .single (Or.inl (h hkept))

theorem writes_makes {f : World → α × World} (h : ∀ w, (f w).2.scopes = w.scopes) :
    (makes f).Writes c g x := goes_makes fun w => ⟨moves_of_scopes_eq (h w), trivial⟩

theorem writes_delete (base : Value) (key : String) :
    (attempts fun w => w.deleteProperty base key).Writes c g x :=
  goes_attempts (fun w => moves_of_scopes_eq (w.deleteProperty_frame base key).1) fun _ _ _ => trivial

/-- A reserved name is declared where its cell is. -/
theorem writes_declare {s : ScopeId} {name : String} (h : name ∈ g.ownNames s) (value : Value) :
    (scopes fun g' => g'.declare s name value).Writes c g x := by
  apply goes_scopes
  intro w
  apply moves_of_sameShape
  intro hkept
  exact ScopeGraph.sameShape_declare_own value (hkept.names s h)

theorem writes_reset {s : ScopeId} {names : List String} (h : names ⊆ g.ownNames s) :
    (Context.resetNames s names).Writes c g x := by
  apply goes_scopes
  intro w
  apply moves_of_sameShape
  generalize w.scopes = g'
  induction names generalizing g' with
  | nil => exact fun _ => .refl g'
  | cons name rest ih =>
    intro hkept
    obtain ⟨hname, hrest⟩ := List.cons_subset.mp h
    have hfirst := ScopeGraph.sameShape_declare_own (s := s) .undefined (hkept.names s hname)
    exact hfirst.trans (ih hrest _ (hkept.trans hfirst.keptIn))

/-- The assignee may be set. -/
theorem writes_set {s : ScopeId} {name : String} (h : x = some (s, name)) (value : Value) :
    (scopes fun g' => g'.set s name value).Writes c g x :=
  goes_scopes fun _ _ => .single (Or.inr ⟨s, name, value, h, rfl⟩)

variable {n : NodeId} {s : ScopeId}

theorem writes_bind {binding : Binding} (h : c.tree.Derives (.pattern binding.declares) n)
    (hreserved : binding.Reserved c.tree g n) (value : Value) :
    (c.bind n value s binding).Writes c g x := by
  have hask : (ask (.bind c.toActivation n value s binding)).Writes c g x := by
    apply goes_ask
    exact Or.inl ⟨rfl, h, hreserved⟩
  exact hask.bind fun _ _ => goes_pure trivial

/-- A visited node takes the scope that the resolution recorded. -/
theorem goes_blockScope {gait : Gait} (ha : c.Sound) (hn : c.tree.Walked c.links.root n) :
    (c.blockScope n s).Goes gait fun own => c.links.scope? n = some own := by
  obtain ⟨own, hown⟩ := Option.isSome_iff_exists.mp ((ha.stamped.contains_iff n).mpr hn)
  rw [Context.blockScope, hown]
  exact goes_pure rfl

end Eval

/-! ## Sites -/

/-- What may be asked for at a site belongs to its activation, and what may be declared there is reserved. -/
structure Site.Reserved (x : Site) (g : ScopeGraph) (assignee : Option (ScopeId × String)) : Prop where
  asks : ∀ {n}, x.asks n → x.context.Evaluates n
  binds : ∀ {p declares}, x.binds p declares → x.context.tree.Derives (.pattern declares) p
  loops : ∀ {rounds}, x.loops rounds → ∀ n ∈ rounds.nodes, x.context.Evaluates n
  opens : ∀ {n}, x.opens n → x.context.tree.Walked x.context.links.root n
  declares : ∀ {d names}, x.declares d names →
    ∃ target, x.context.links.target? d = some target ∧ names ⊆ g.ownNames target
  catches : ∀ {body names}, x.catches body names →
    ∃ own, x.context.links.scope? body = some own ∧ names ⊆ g.ownNames own
  gives : ∀ {names target}, x.gives names target → names ⊆ g.ownNames target
  assigns : ∀ {s name}, x.assigns s name → assignee = some (s, name)

namespace Site

variable {x : Site} {g : ScopeGraph} {assignee : Option (ScopeId × String)} {S : ScopeId → Prop}

theorem Reserved.lands (hx : x.Reserved g assignee) {names : List String} {t t' : ScopeId}
    (h : x.Lands S names t t') : names ⊆ g.ownNames t := by
  cases h with
  | target hd hs =>
    obtain ⟨target, htarget, hnames⟩ := hx.declares hd
    rw [Context.declarationTarget, htarget]
    exact hnames
  | block hbody hs hown =>
    obtain ⟨own, hrecorded, hnames⟩ := hx.catches hbody
    rw [hown own hrecorded]
    exact hnames
  | given h => exact hx.gives h

theorem Reserved.aims (hx : x.Reserved g assignee) {p : NodeId} {binding binding' : Binding}
    (h : x.Aims S p binding binding') : binding.Reserved x.context.tree g p := by
  cases h with
  | declare hlands => exact hx.lands hlands
  | assign => trivial

theorem reserved_ofNode {c : Context} (hr : c.links.Reserves c.tree g) {n : NodeId} (h : c.Evaluates n)
    (limits : Limits) (links : Links) (s : ScopeId) :
    (ofNode c limits links n s).Reserved g (Task.assignee? (.eval c.toActivation n s)) where
  asks hm := h.evaluated hm
  binds hbinds := h.binds hbinds
  loops hloops m hm := h.evaluated (hloops.2 hm)
  opens hblock := h.opened hblock
  declares hd := h.declares hr hd
  catches hbody := h.catches hr hbody
  gives h := h.elim
  assigns := by
    rintro _ name ⟨rfl, hname⟩
    change ((c.tree.assignee? n).bind c.tree.identifierName?).map _ = _
    rw [hname]
    rfl

theorem reserved_ofPattern {c : Context} (ht : c.tree.Proper) {p : NodeId} {binding : Binding}
    (h : c.tree.Derives (.pattern binding.declares) p) (hreserved : binding.Reserved c.tree g p)
    (limits : Limits) (links : Links) (value : Value) (s : ScopeId) :
    (ofPattern c limits links p s binding).Reserved g
      (Task.assignee? (.bind c.toActivation p value s binding)) where
  asks hm := Or.inl (h.patternValues hm)
  binds := by
    rintro q _ ⟨hq, rfl⟩
    exact (h.subpatterns ht hq).1
  loops h := h.elim
  opens h := h.elim
  declares h := h.elim
  catches h := h.elim
  gives := by
    rintro _ target ⟨rfl, ⟨q, hq, rfl⟩ | rfl⟩
    · exact List.Subset.trans (h.subpatterns ht hq).2 hreserved
    · exact fun name hname => hreserved (ht.mem_bindingNames (Option.mem_toList.mp hname))
  assigns := by
    rintro _ name ⟨rfl, rfl, hname⟩
    rw [Task.assignee?, hname]
    rfl

theorem reserved_ofLoop {c : Context} {rounds : Loop} (h : ∀ n ∈ rounds.nodes, c.Evaluates n)
    (limits : Limits) (links : Links) : (ofLoop c limits links rounds).Reserved g assignee where
  asks hm := h _ hm
  binds h := h.elim
  loops h := h.elim
  opens h := h.elim
  declares h := h.elim
  catches h := h.elim
  gives h := h.elim
  assigns h := h.elim

end Site

/-- **Where names are reserved, a site writes cells that are there**, and its assignee. -/
theorem Eval.writes_of_does {x : Site} {g : ScopeGraph} {assignee : Option (ScopeId × String)}
    (ha : x.context.Sound) (hx : x.Reserved g assignee) {α : Type} {S : ScopeId → Prop} {ok : α → Prop}
    {m m' : Eval α} (h : x.Does S ok m m') : m.Goes (x.context.writing g assignee) ok := by
  induction h with
  | pure ha => exact goes_pure ha
  | abrupt e => exact goes_abrupt e
  | reads f => exact goes_reads fun _ => trivial
  | checks f => exact goes_checks fun _ _ _ => trivial
  | newArray items => exact writes_makes fun _ => rfl
  | newObject fields => exact writes_makes fun _ => rfl
  | newClosure hs hfunction hclosure harrow => exact writes_makes fun _ => rfl
  | named name id => exact writes_makes fun w => Context.named_scopes w name id
  | declare hlands hname value => exact writes_declare (hx.lands hlands hname) value
  | assign hassigns value => exact writes_set (hx.assigns hassigns) value
  | reset hlands => exact writes_reset (hx.lands hlands)
  | write base key value =>
    exact goes_risks (fun w _ hr => moves_of_scopes_eq (w.setProperty?_frame hr).1) fun _ _ _ _ => trivial
  | delete base key => exact writes_delete base key
  | eval hn hs => exact goes_ask (Or.inl ⟨rfl, hx.asks hn⟩)
  | bindTo value hbinds hs haims => exact writes_bind (hx.binds hbinds) (hx.aims haims) value
  | call callee receiver args => exact goes_ask (Or.inr trivial)
  | loop testFirst hloops hs => exact goes_ask (Or.inl ⟨rfl, hx.loops hloops⟩)
  | bind hm hf ihm ihf => exact ihm.bind ihf
  | caught hm hf hpass ihm ihf => exact ihm.catching.bind fun outcome _ => ihf outcome
  | raisedAt n hm ih => exact ih.raisedAt n
  | opened hn hs hf ih =>
    exact (goes_blockScope ha (hx.opens hn)).bind fun own hown => ih own (Site.isOwn_of_some hown)

end ScriptCore

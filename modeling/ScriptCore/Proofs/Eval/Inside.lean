import ScriptCore.Proofs.Eval.Contract
import ScriptCore.Proofs.Eval.Entry
import ScriptCore.Proofs.Hoist.Inside

/-!
# Evaluating inside a call

The contract of everything that runs after a scope graph `g₀` was there: tasks work in scopes made later
and hold links to such scopes, and of `g₀` only `ScopeGraph.Changes` are made. What a site does keeps it,
whatever the shape of the tree: a declaration goes to a target of the links or to the scope at hand, and
both were made inside.
-/
namespace ScriptCore

/-- A task works in scopes with ids from `n` on. -/
def Task.Inside (n : Nat) : Task → Prop
  | .eval a _ scope => a.links.Within n ∧ n ≤ scope
  | .bind a _ _ scope binding =>
    a.links.Within n ∧ n ≤ scope ∧ ∀ target, binding = .declare target → n ≤ target
  | .call _ _ _ _ => True
  | .loop a _ scope _ => a.links.Within n ∧ n ≤ scope

/-- What runs after `g₀` works in scopes made after it, and changes the graph accordingly. -/
def ScopeGraph.insideContract (g₀ : ScopeGraph) : Contract where
  inv w := Changes g₀.size g₀ w.scopes
  asks := Task.Inside g₀.size
  gives _ _ := True

/-! ## Steps -/

namespace Eval

variable {α : Type} {g₀ : ScopeGraph}

/-- A step stays inside, however it ends. -/
def Stays (g₀ : ScopeGraph) (m : Eval α) : Prop :=
  m.Keeps g₀.insideContract (fun _ => True) fun _ => True

/-- Making something in a world leaves the scopes alone. -/
theorem stays_makes {f : World → α × World} (h : ∀ w, (f w).2.scopes = w.scopes) :
    (makes f).Stays g₀ := by
  refine keeps_makes fun w hw => ⟨?_, trivial⟩
  change ScopeGraph.Changes g₀.size g₀ (f w).2.scopes
  rw [h w]
  exact hw

/-- Changing the scopes as evaluations inside may. -/
theorem stays_scopes {f : ScopeGraph → ScopeGraph}
    (h : ∀ g, g₀.size ≤ g.size → ScopeGraph.Changes g₀.size g (f g)) : (scopes f).Stays g₀ :=
  keeps_modifies (fun w hw => Relation.ReflTransGen.trans hw
    (h w.scopes (ScopeGraph.Changes.size_le hw))) trivial

theorem stays_reset {target : ScopeId} (ht : g₀.size ≤ target) (names : List String) :
    (Context.resetNames target names).Stays g₀ := by
  refine stays_scopes fun g _ => ?_
  have hfold : ∀ g, ScopeGraph.Changes g₀.size g
      (names.foldl (fun g name => g.declare target name .undefined) g) := by
    induction names with
    | nil => exact fun _ => .refl
    | cons name rest ih => exact fun g => .head (.declared ht name .undefined) (ih _)
  exact hfold g

theorem stays_write (base : Value) (key : String) (value : Value) (bound : Nat) :
    (risks fun w => w.setProperty? base key value bound).Stays g₀ := by
  refine keeps_risks (fun w r hw hr => ?_) (fun _ _ _ _ => trivial) fun _ _ _ _ => trivial
  change ScopeGraph.Changes g₀.size g₀ r.2.scopes
  rw [(w.setProperty?_frame hr).1]
  exact hw

theorem stays_delete (base : Value) (key : String) :
    (attempts fun w => w.deleteProperty base key).Stays g₀ := by
  refine keeps_attempts (fun w hw => ?_) (fun _ _ _ => trivial) fun _ _ _ => trivial
  change ScopeGraph.Changes g₀.size g₀ (w.deleteProperty base key).2.scopes
  rw [(w.deleteProperty_frame base key).1]
  exact hw

theorem stays_ask {task : Task} (h : task.Inside g₀.size) : (ask task).Stays g₀ :=
  keeps_ask h (fun _ _ => trivial) fun _ _ => trivial

end Eval

/-! ## Sites -/

/-- A site inside: its links are, and the scopes where it may declare or assign. -/
structure Site.Inside (n : Nat) (x : Site) : Prop where
  links : x.context.links.Within n
  gives : ∀ {names t}, x.gives names t → n ≤ t
  assigns : ∀ {s name}, x.assigns s name → n ≤ s

namespace Site

variable {x : Site} {S : ScopeId → Prop} {k : Nat}

theorem inside_ofNode {c : Context} (hc : c.links.Within k) {s : ScopeId} (hs : k ≤ s) (limits : Limits)
    (links : Links) (n : NodeId) : (ofNode c limits links n s).Inside k where
  links := hc
  gives h := h.elim
  assigns h := h.1 ▸ hs

theorem inside_ofPattern {c : Context} (hc : c.links.Within k) {s : ScopeId} (hs : k ≤ s)
    {binding : Binding} (hb : ∀ target, binding = .declare target → k ≤ target) (limits : Limits)
    (links : Links) (p : NodeId) : (ofPattern c limits links p s binding).Inside k where
  links := hc
  gives h := hb _ h.1
  assigns h := h.1 ▸ hs

theorem inside_ofCall {c : Context} (hc : c.links.Within k) {s : ScopeId} (hs : k ≤ s) (limits : Limits)
    (links : Links) (closure : Closure) : (ofCall c limits links closure s).Inside k where
  links := hc
  gives h := h.1 ▸ hs
  assigns h := h.elim

theorem inside_ofLoop {c : Context} (hc : c.links.Within k) (limits : Limits) (links : Links)
    (rounds : Loop) : (ofLoop c limits links rounds).Inside k where
  links := hc
  gives h := h.elim
  assigns h := h.elim

/-- Names are declared in the target of a declaration, or in the scope at hand. -/
theorem Inside.lands (hx : x.Inside k) (hS : ∀ t, S t → k ≤ t) {names : List String} {t t' : ScopeId}
    (h : x.Lands S names t t') : k ≤ t := by
  cases h with
  | @target d _ s hd hs =>
    rw [Context.declarationTarget]
    cases htarget : x.context.links.target? d with
    | none => exact hS s hs
    | some target => exact hx.links.targets d target htarget
  | block hbody hs hown => exact hS _ hs
  | given h => exact hx.gives h

end Site

namespace Eval

variable {α : Type} {g₀ : ScopeGraph}

/-- **What a site inside allows stays inside.** -/
theorem keeps_of_does {x : Site} (hx : x.Inside g₀.size) {S : ScopeId → Prop}
    (hS : ∀ t, S t → g₀.size ≤ t) {ok : α → Prop} {m m' : Eval α} (h : x.Does S ok m m') :
    m.Keeps g₀.insideContract ok fun _ => True := by
  induction h with
  | pure ha => exact keeps_pure ha
  | abrupt e => exact keeps_abrupt trivial
  | reads f => exact keeps_reads fun _ _ => trivial
  | checks f => exact keeps_checks (fun _ _ _ => trivial) fun _ _ _ => trivial
  | newArray items => exact stays_makes fun _ => rfl
  | newObject fields => exact stays_makes fun _ => rfl
  | newClosure hs hfunction hclosure harrow => exact stays_makes fun _ => rfl
  | named name id => exact stays_makes fun w => Context.named_scopes w name id
  | declare hlands hname value =>
    exact stays_scopes fun _ _ => .single (.declared (hx.lands hS hlands) _ value)
  | assign hassigns value =>
    exact stays_scopes fun _ _ => .single (ScopeGraph.change_set (hx.assigns hassigns) _ value)
  | reset hlands => exact stays_reset (hx.lands hS hlands) _
  | write base key value => exact stays_write base key value _
  | delete base key => exact stays_delete base key
  | eval hn hs => exact stays_ask ⟨hx.links, hS _ hs⟩
  | @bindTo _ p s binding _ value hbinds hs haims =>
    have htask : (Task.bind x.context.toActivation p value s binding).Inside g₀.size := by
      refine ⟨hx.links, hS s hs, ?_⟩
      rintro target rfl
      cases haims with
      | declare hlands => exact hx.lands hS hlands
    exact Keeps.bind (stays_ask htask) fun _ _ => keeps_pure trivial
  | call callee receiver args => exact stays_ask trivial
  | loop testFirst hloops hs => exact stays_ask ⟨hx.links, hS _ hs⟩
  | bind hm hf ihm ihf => exact (ihm hS).bind fun b hb => ihf b hb hS
  | caught hm hf hpass ihm ihf =>
    exact Keeps.bind (Keeps.catching (ihm hS)) fun outcome _ => ihf outcome hS
  | raisedAt n hm ih => exact (ih hS).raisedAt fun _ _ => trivial
  | @opened _ _ n s _ f f' hn hs hf ih =>
    intro w hw
    have hin {own : ScopeId} (hown : g₀.size ≤ own) (t : ScopeId) (ht : _ ∨ t = own) : g₀.size ≤ t :=
      ht.elim (hS t) fun h => h ▸ hown
    obtain ⟨own, hown, heq⟩ | ⟨hnone, heq⟩ := Site.openBlock_cases x.context n s f w
    · rw [heq]
      exact ih own (Site.isOwn_of_some hown) (hin (hx.links.scopes n own hown)) w hw
    · rw [heq]
      exact ih _ (Site.isOwn_of_none hnone _) (hin (ScopeGraph.Changes.size_le hw)) _
        (Relation.ReflTransGen.tail hw (.opened s))

end Eval

end ScriptCore

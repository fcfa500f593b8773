import ScriptCore.Proofs.Eval.Entry

/-!
# Steps in other activations

A rule hands the links of its activation on to the tasks it asks for. Of the links themselves it reads the
scopes of the blocks that its node opens and the targets of the declarations that it carries out. So under
links that say the same of these it is the same step, up to the links in its tasks
(`Evaluator.relinks_evalNode`).
-/
namespace ScriptCore

/-- The task in an activation with other links. -/
def Task.relinked (l : Links) : Task → Task
  | .eval a node scope => .eval { a with links := l } node scope
  | .bind a pattern value scope binding => .bind { a with links := l } pattern value scope binding
  | .call depth callee receiver args => .call depth callee receiver args
  | .loop a rounds scope testFirst => .loop { a with links := l } rounds scope testFirst

namespace Computation

variable {α β : Type} {l : Links}

/-- The computation with all tasks it asks for in activations with other links. -/
def relinked (l : Links) : Computation α → Computation α
  | .done outcome w => .done outcome w
  | .ask task w resume => .ask (task.relinked l) w fun outcome w => (resume outcome w).relinked l
  | .brokenOff => .brokenOff

/-- The second computation is the first one in activations with other links; the values that they come to
satisfy `ok`. -/
def Relinks (l : Links) (ok : α → Prop) : Computation α → Computation α → Prop
  | .done (.ok a) w, c => ok a ∧ c = .done (.ok a) w
  | .done (.error e) w, c => c = .done (.error e) w
  | .ask task w resume, c => ∃ resume', c = .ask (task.relinked l) w resume' ∧
      ∀ outcome w', (resume outcome w').Relinks l ok (resume' outcome w')
  | .brokenOff, c => c = .brokenOff

theorem Relinks.eq {ok : α → Prop} {c c' : Computation α} (h : c.Relinks l ok c') : c' = c.relinked l := by
  induction c generalizing c' with
  | done outcome w =>
    cases outcome with
    | ok a => exact h.2
    | error e => exact h
  | ask task w resume ih =>
    obtain ⟨resume', rfl, hresume⟩ := h
    rw [relinked]
    congr 1
    exact funext fun outcome => funext fun w' => ih outcome w' (hresume outcome w')
  | brokenOff => exact h

theorem Relinks.andThen {mid : β → Prop} {ok : α → Prop} {c c' : Computation β}
    {f f' : β → World → Computation α} (h : c.Relinks l mid c')
    (hf : ∀ b w, mid b → (f b w).Relinks l ok (f' b w)) : (c.andThen f).Relinks l ok (c'.andThen f') := by
  induction c generalizing c' with
  | done outcome w =>
    cases outcome with
    | ok b =>
      obtain ⟨hb, rfl⟩ := h
      exact hf b w hb
    | error e =>
      obtain rfl := h
      rfl
  | ask task w resume ih =>
    obtain ⟨resume', rfl, hresume⟩ := h
    exact ⟨_, rfl, fun outcome w' => ih outcome w' (hresume outcome w')⟩
  | brokenOff =>
    obtain rfl := h
    rfl

theorem Relinks.caught {ok : α → Prop} {c c' : Computation α} (h : c.Relinks l ok c') :
    c.caught.Relinks l (fun _ => True) c'.caught := by
  induction c generalizing c' with
  | done outcome w =>
    cases outcome with
    | ok a =>
      obtain ⟨-, rfl⟩ := h
      exact ⟨trivial, rfl⟩
    | error e =>
      obtain rfl := h
      exact ⟨trivial, rfl⟩
  | ask task w resume ih =>
    obtain ⟨resume', rfl, hresume⟩ := h
    exact ⟨_, rfl, fun outcome w' => ih outcome w' (hresume outcome w')⟩
  | brokenOff =>
    obtain rfl := h
    rfl

theorem Relinks.raisedAt {ok : α → Prop} {c c' : Computation α} (h : c.Relinks l ok c') (n : NodeId) :
    (c.raisedAt n).Relinks l ok (c'.raisedAt n) := by
  induction c generalizing c' with
  | done outcome w =>
    cases outcome with
    | ok a =>
      obtain ⟨ha, rfl⟩ := h
      exact ⟨ha, rfl⟩
    | error e =>
      obtain rfl := h
      rfl
  | ask task w resume ih =>
    obtain ⟨resume', rfl, hresume⟩ := h
    exact ⟨_, rfl, fun outcome w' => ih outcome w' (hresume outcome w')⟩
  | brokenOff =>
    obtain rfl := h
    rfl

end Computation

namespace Eval

variable {α : Type} {l : Links}

/-- The step with all tasks it asks for in activations with other links. -/
def relinked (l : Links) (m : Eval α) : Eval α := fun w => (m w).relinked l

/-- The second step is the first one in an activation with other links. -/
def Relinks (l : Links) (ok : α → Prop) (m m' : Eval α) : Prop := ∀ w, (m w).Relinks l ok (m' w)

theorem Relinks.eq {ok : α → Prop} {m m' : Eval α} (h : Relinks l ok m m') : m' = m.relinked l :=
  funext fun w => (h w).eq

theorem relinks_checks (f : World → Except Cause α) :
    Relinks l (fun _ => True) (checks f) (checks f) := by
  intro w
  rw [checks]
  split
  · exact ⟨trivial, rfl⟩
  · rfl

theorem relinks_attempts (f : World → Except Cause α × World) :
    Relinks l (fun _ => True) (attempts f) (attempts f) := by
  intro w
  rw [attempts]
  split
  · exact ⟨trivial, rfl⟩
  · rfl

theorem relinks_risks (f : World → Option (Except Cause α × World)) :
    Relinks l (fun _ => True) (risks f) (risks f) := by
  intro w
  rw [risks]
  split
  · exact ⟨trivial, rfl⟩
  · rfl
  · rfl

theorem relinks_ask (task : Task) : Relinks l (fun _ => True) (ask task) (ask (task.relinked l)) :=
  fun _ => ⟨_, rfl, fun
    | .ok _, _ => ⟨trivial, rfl⟩
    | .error _, _ => rfl⟩

/-- **Other links that agree on what a site reads of them change nothing else.** -/
theorem relinks_of_does {x : Site} (hlimits : x.limits = x.context.limits) (hx : x.Agrees)
    {S : ScopeId → Prop} {ok : α → Prop} {m m' : Eval α} (h : x.Does S ok m m') :
    Relinks x.links ok m m' := by
  induction h with
  | pure ha => exact fun w => ⟨ha, rfl⟩
  | abrupt e => exact fun w => rfl
  | reads f => exact fun w => ⟨trivial, rfl⟩
  | checks f => exact relinks_checks f
  | newArray items => exact fun w => ⟨trivial, rfl⟩
  | newObject fields => exact fun w => ⟨trivial, rfl⟩
  | newClosure hs hfunction hclosure harrow => exact fun w => ⟨trivial, rfl⟩
  | named name id => exact fun w => ⟨trivial, rfl⟩
  | declare hlands hname value =>
    obtain rfl := hlands.eq_of_agrees hx
    exact fun w => ⟨trivial, rfl⟩
  | assign hassigns value => exact fun w => ⟨trivial, rfl⟩
  | reset hlands =>
    obtain rfl := hlands.eq_of_agrees hx
    exact fun w => ⟨trivial, rfl⟩
  | write base key value =>
    rw [hlimits]
    exact relinks_risks _
  | delete base key => exact relinks_attempts _
  | eval hn hs => exact relinks_ask _
  | bindTo value hbinds hs haims =>
    obtain rfl := haims.eq_of_agrees hx
    exact fun w => (relinks_ask _ w).andThen fun _ w' _ => ⟨trivial, rfl⟩
  | call callee receiver args => exact relinks_ask _
  | loop testFirst hloops hs => exact relinks_ask _
  | bind hm hf ihm ihf => exact fun w => (ihm w).andThen fun b w' hb => ihf b hb w'
  | caught hm hf hpass ihm ihf =>
    exact fun w => (ihm w).caught.andThen fun outcome w' _ => ihf outcome w'
  | raisedAt n hm ih => exact fun w => (ih w).raisedAt n
  | @opened _ _ n s _ f f' hn hs hf ih =>
    intro w
    obtain ⟨own, w', hown, -, heq, heq'⟩ := hx.openBlock hn s f f' w
    rw [heq, heq']
    exact ih own hown w'

end Eval

/-- Links that say the same as others of what the rule of a node asks for. -/
structure Links.AgreesAt (l l' : Links) (t : Tree) (n : NodeId) : Prop where
  opened : ∀ block ∈ t.openedBlocks n, l'.scope? block = l.scope? block
  declared : ∀ d ∈ t.declaringNodes n, l'.target? d = l.target? d

/-- Where links agree on what the rule of the node asks for, the node is evaluated in the same way. -/
theorem Evaluator.relinks_evalNode {ev : Evaluator} (hrules : ev.rules = RuleTable.default)
    {a : Activation} {n : NodeId} {l : Links} (h : a.links.AgreesAt l a.tree n) (s : ScopeId) :
    ev.evalNode { a with links := l } n s = (ev.evalNode a n s).relinked l := by
  have hagrees : (Site.ofNode (ev.context a) ev.limits l n s).Agrees :=
    ⟨fun hn => h.opened _ hn, fun hd => h.declared _ hd.mem⟩
  have hdoes := does_evalNode (S := fun _ => True) (s := s) hrules ev.limits l a n trivial
  exact (Eval.relinks_of_does rfl hagrees hdoes).eq

end ScriptCore

import ScriptCore.Proofs.Eval.Contract
import ScriptCore.Proofs.Eval.Entry
import ScriptCore.Proofs.Eval.Stack
import ScriptCore.Proofs.Numeric.Exactness

/-!
# Under wider limits

A step under wider limits follows the same step under narrower ones, until a limit stops the latter
(`Computation.Follows`). Where no finalizer can go on after a failure, a failure that a step receives is
the end of the step as well; so a limit that fires ends the whole run, and a run in which none fires is
the same run under wider limits (`Evaluator.run_follows`).
-/
namespace ScriptCore

/-- Failures of a limit: of the depth of calls, and of the length of arrays. -/
def Cause.isLimit : Cause → Bool
  | .stackOverflow _ | .invalidArrayLength _ => true
  | _ => false

/-- An end by a failure of a limit. -/
def Abrupt.HitsLimit : Abrupt → Prop
  | .failure e => e.cause.isLimit = true
  | _ => False

/-- The functions of a host make no closures. -/
def Host.MakesNoClosures (host : Host) : Prop :=
  ∀ name native, host.native name = some native →
    ∀ receiver args w, (native receiver args w).2.closures = w.closures

/-- All closures are made of functions of one tree. -/
def World.ClosuresOf (t : Tree) (w : World) : Prop :=
  ∀ id closure, w.closure? id = some closure → closure.MadeOf t

/-- A task in a tree; what it binds is a target. -/
def Task.WithinTree (t : Tree) : Task → Prop
  | .eval a _ _ => a.tree = t
  | .bind a pattern _ _ _ => a.tree = t ∧ t.IsTarget pattern
  | .call _ _ _ _ => True
  | .loop a _ _ _ => a.tree = t

/-- A failure is handed on at once, in the same world and for the same cause. -/
def PassesFailures {α : Type} (resume : Except Abrupt Value → World → Computation α) : Prop :=
  ∀ e w, ∃ e', e'.cause = e.cause ∧ resume (.error (.failure e)) w = .done (.error (.failure e')) w

namespace World

variable {t : Tree} {w : World}

theorem ClosuresOf.of_closures {w' : World} (h : w.ClosuresOf t) (hsame : w'.closures = w.closures) :
    w'.ClosuresOf t := by
  intro id closure hclosure
  rw [closure?, hsame] at hclosure
  exact h id closure hclosure

theorem closuresOf_of_empty (h : w.closures = #[]) : w.ClosuresOf t := by
  intro id closure hclosure
  simp [closure?, h] at hclosure

theorem ClosuresOf.newClosure (h : w.ClosuresOf t) {closure : Closure} (hmade : closure.MadeOf t) :
    (w.newClosure closure).2.ClosuresOf t := by
  intro id found hfound
  simp only [World.closure?, World.newClosure, Array.getElem?_push] at hfound
  split at hfound
  · cases hfound
    exact hmade
  · exact h id found hfound

theorem ClosuresOf.named (h : w.ClosuresOf t) (name : String) (id : ClosureId) :
    (Context.named w name id).2.ClosuresOf t := by
  rw [Context.named]
  split
  next closure hclosure =>
    split
    · exact h.newClosure ((h id closure hclosure).shown (some name))
    · exact h
  · exact h

end World

namespace Computation

variable {α β : Type} {t : Tree}

/-- The second computation does what the first one does until a limit stops the first. Failures pass
through both. -/
def Follows (t : Tree) (ok : α → Prop) : Computation α → Computation α → Prop
  | .done (.ok a) w, c => w.ClosuresOf t ∧ ok a ∧ c = .done (.ok a) w
  | .done (.error e) w, c =>
    e.HitsLimit ∨ w.ClosuresOf t ∧ c = .done (.error e) w
  | .ask task w resume, c => w.ClosuresOf t ∧ task.WithinTree t ∧ PassesFailures resume ∧
    ∃ resume', c = .ask task w resume' ∧
      ∀ outcome w', w'.ClosuresOf t → (resume outcome w').Follows t ok (resume' outcome w')
  | .brokenOff, c => c = .brokenOff

theorem Follows.mono {ok ok' : α → Prop} {c c' : Computation α} (h : c.Follows t ok c')
    (hok : ∀ a, ok a → ok' a) : c.Follows t ok' c' := by
  induction c generalizing c' with
  | done outcome w =>
    cases outcome with
    | ok a => exact ⟨h.1, hok a h.2.1, h.2.2⟩
    | error e => exact h
  | ask task w resume ih =>
    obtain ⟨hw, htask, hpass, resume', heq, hresume⟩ := h
    exact ⟨hw, htask, hpass, resume', heq, fun outcome w' hw' => ih outcome w' (hresume outcome w' hw')⟩
  | brokenOff => exact h

theorem Follows.andThen {mid : β → Prop} {ok : α → Prop} {c c' : Computation β}
    {f f' : β → World → Computation α} (h : c.Follows t mid c')
    (hf : ∀ b w, mid b → w.ClosuresOf t → (f b w).Follows t ok (f' b w)) :
    (c.andThen f).Follows t ok (c'.andThen f') := by
  induction c generalizing c' with
  | done outcome w =>
    cases outcome with
    | ok b =>
      obtain ⟨hw, hb, rfl⟩ := h
      exact hf b w hb hw
    | error e =>
      cases h with
      | inl hlimit => exact Or.inl hlimit
      | inr h =>
        obtain ⟨hw, rfl⟩ := h
        exact Or.inr ⟨hw, rfl⟩
  | ask task w resume ih =>
    obtain ⟨hw, htask, hpass, resume', rfl, hresume⟩ := h
    refine ⟨hw, htask, fun e w' => ?_, _, rfl, fun outcome w' hw' =>
      ih outcome w' (hresume outcome w' hw')⟩
    obtain ⟨e', hcause, heq⟩ := hpass e w'
    exact ⟨e', hcause, congrArg (fun c => c.andThen f) heq⟩
  | brokenOff =>
    obtain rfl := h
    rfl

/-- Going on with an outcome, where failures pass. -/
theorem Follows.caught {ok : α → Prop} {c c' : Computation β}
    {f f' : Except Abrupt β → World → Computation α} (h : c.Follows t (fun _ => True) c')
    (hf : ∀ outcome w, w.ClosuresOf t → (f outcome w).Follows t ok (f' outcome w))
    (hpass : ∀ e w, f (.error (.failure e)) w = .done (.error (.failure e)) w) :
    (c.caught.andThen f).Follows t ok (c'.caught.andThen f') := by
  induction c generalizing c' with
  | done outcome w =>
    cases outcome with
    | ok b =>
      obtain ⟨hw, -, rfl⟩ := h
      exact hf (.ok b) w hw
    | error e =>
      cases h with
      | inl hlimit =>
        cases e with
        | failure e =>
          have heq : (Computation.done (.error (.failure e)) w : Computation β).caught.andThen f =
              .done (.error (.failure e)) w := hpass e w
          rw [heq]
          exact Or.inl hlimit
        | _ => cases hlimit
      | inr h =>
        obtain ⟨hw, rfl⟩ := h
        exact hf (.error e) w hw
  | ask task w resume ih =>
    obtain ⟨hw, htask, hresumes, resume', rfl, hresume⟩ := h
    refine ⟨hw, htask, fun e w' => ?_, _, rfl, fun outcome w' hw' =>
      ih outcome w' (hresume outcome w' hw')⟩
    obtain ⟨e', hcause, heq⟩ := hresumes e w'
    exact ⟨e', hcause, (congrArg (fun c => c.caught.andThen f) heq).trans (hpass e' w')⟩
  | brokenOff =>
    obtain rfl := h
    rfl

theorem Follows.raisedAt {ok : α → Prop} {c c' : Computation α} (h : c.Follows t ok c') (n : NodeId) :
    (c.raisedAt n).Follows t ok (c'.raisedAt n) := by
  induction c generalizing c' with
  | done outcome w =>
    cases outcome with
    | ok a =>
      obtain ⟨hw, ha, rfl⟩ := h
      exact ⟨hw, ha, rfl⟩
    | error e =>
      cases h with
      | inl hlimit =>
        cases e with
        | failure e => exact Or.inl hlimit
        | _ => cases hlimit
      | inr h =>
        obtain ⟨hw, rfl⟩ := h
        exact Or.inr ⟨hw, rfl⟩
  | ask task w resume ih =>
    obtain ⟨hw, htask, hpass, resume', rfl, hresume⟩ := h
    refine ⟨hw, htask, fun e w' => ?_, _, rfl, fun outcome w' hw' =>
      ih outcome w' (hresume outcome w' hw')⟩
    obtain ⟨e', hcause, heq⟩ := hpass e w'
    exact ⟨e'.raisedAt n, hcause, congrArg (Computation.raisedAt n) heq⟩
  | brokenOff =>
    obtain rfl := h
    rfl

end Computation

namespace Eval

variable {α : Type} {t : Tree}

/-- The second step follows the first from every world with closures of the tree only. -/
def Follows (t : Tree) (ok : α → Prop) (m m' : Eval α) : Prop :=
  ∀ w, w.ClosuresOf t → (m w).Follows t ok (m' w)

theorem follows_checks (f : World → Except Cause α) :
    Follows t (fun _ => True) (checks f) (checks f) := by
  intro w hw
  rw [checks]
  split
  · exact ⟨hw, trivial, rfl⟩
  · exact Or.inr ⟨hw, rfl⟩

theorem follows_delete (base : Value) (key : String) :
    Follows t (fun _ => True) (attempts fun w => w.deleteProperty base key)
      (attempts fun w => w.deleteProperty base key) := by
  intro w hw
  have hsame := (w.deleteProperty_frame base key).2
  rw [attempts]
  split
  next a w' h => exact ⟨hw.of_closures (by rw [h] at hsame; exact hsame), trivial, rfl⟩
  next cause w' h => exact Or.inr ⟨hw.of_closures (by rw [h] at hsame; exact hsame), rfl⟩

/-- A write that a narrower bound lets pass goes the same way under a wider one. -/
theorem setProperty?_mono {w : World} {base : Value} {key : String} {value : Value} {bound bound' : Nat}
    (h : bound ≤ bound') : w.setProperty? base key value bound' = w.setProperty? base key value bound ∨
      ∃ cause, cause.isLimit = true ∧ w.setProperty? base key value bound = some (.error cause, w) := by
  have hcases : w.writeOf base key value bound' = w.writeOf base key value bound ∨
      ∃ cause, cause.isLimit = true ∧ w.writeOf base key value bound = .refused cause := by
    cases base with
    | array id =>
      simp only [World.writeOf]
      split
      · split
        · exact Or.inl rfl
        · cases hlength : Numeric.toNat? (w.number value) with
          | none => exact Or.inl rfl
          | some length =>
            have hrounded := Numeric.rounded_mono h
            by_cases hle : length ≤ Numeric.rounded bound
            · left
              simp [Option.filter, hle, Nat.le_trans hle hrounded]
            · right
              exact ⟨.invalidArrayLength (w.text value), rfl, by simp [Option.filter, hle]⟩
      · split
        next index _ =>
          by_cases hle : index + 1 ≤ bound
          · left
            rw [if_pos hle, if_pos (Nat.le_trans hle h)]
          · right
            exact ⟨.invalidArrayLength key, rfl, by rw [if_neg hle]⟩
        · exact Or.inl rfl
    | _ => exact Or.inl rfl
  cases hcases with
  | inl hsame =>
    left
    rw [World.setProperty?, World.setProperty?, hsame]
  | inr hrefused =>
    obtain ⟨cause, hlimit, hrefused⟩ := hrefused
    exact Or.inr ⟨cause, hlimit, by rw [World.setProperty?, hrefused]⟩

theorem follows_write (base : Value) (key : String) (value : Value) {bound bound' : Nat}
    (h : bound ≤ bound') : Follows t (fun _ => True)
      (risks fun w => w.setProperty? base key value bound)
      (risks fun w => w.setProperty? base key value bound') := by
  intro w hw
  obtain hsame | ⟨cause, hlimit, hrefused⟩ := @setProperty?_mono w base key value bound bound' h
  · rw [risks, risks, hsame]
    split
    next a w' hwrite => exact ⟨hw.of_closures (w.setProperty?_frame hwrite).2, trivial, rfl⟩
    next cause w' hwrite => exact Or.inr ⟨hw.of_closures (w.setProperty?_frame hwrite).2, rfl⟩
    · rfl
  · rw [risks, hrefused]
    exact Or.inl hlimit

/-- A task that is asked for is the same under all limits. -/
theorem follows_ask {task : Task} (htask : task.WithinTree t) :
    Follows t (fun _ => True) (ask task) (ask task) := fun _ hw =>
  ⟨hw, htask, fun e _ => ⟨e, rfl, rfl⟩, _, rfl, fun
    | .ok _, _, hw' => ⟨hw', trivial, rfl⟩
    | .error _, _, hw' => Or.inr ⟨hw', rfl⟩⟩

/-- **What a site allows, wider limits follow.** -/
theorem follows_of_does {x : Site} (hlinks : x.links = x.context.links) (haimed : x.Aimed)
    (hlength : x.context.limits.maxArrayLength ≤ x.limits.maxArrayLength) (hpass : ¬ x.recovers)
    {S : ScopeId → Prop} {ok : α → Prop} {m m' : Eval α} (h : x.Does S ok m m') :
    Follows x.context.tree ok m m' := by
  have hx : x.Agrees := ⟨fun _ => by rw [hlinks], fun _ => by rw [hlinks]⟩
  have hother : x.other.toActivation = x.context.toActivation := by
    change ({ x.context.toActivation with links := x.links } : Activation) = _
    rw [hlinks]
  induction h with
  | pure ha => exact fun w hw => ⟨hw, ha, rfl⟩
  | abrupt e => exact fun w hw => Or.inr ⟨hw, rfl⟩
  | reads f => exact fun w hw => ⟨hw, trivial, rfl⟩
  | checks f => exact follows_checks f
  | newArray items => exact fun w hw => ⟨hw, trivial, rfl⟩
  | newObject fields => exact fun w hw => ⟨hw, trivial, rfl⟩
  | newClosure hs hfunction hclosure harrow =>
    exact fun w hw => ⟨hw.newClosure (Closure.madeOf_ofNode hfunction hclosure), trivial, rfl⟩
  | named name id => exact fun w hw => ⟨hw.named name id, trivial, rfl⟩
  | declare hlands hname value =>
    obtain rfl := hlands.eq_of_agrees hx
    exact fun w hw => ⟨hw, trivial, rfl⟩
  | assign hassigns value => exact fun w hw => ⟨hw, trivial, rfl⟩
  | reset hlands =>
    obtain rfl := hlands.eq_of_agrees hx
    exact fun w hw => ⟨hw, trivial, rfl⟩
  | write base key value => exact follows_write base key value hlength
  | delete base key => exact follows_delete base key
  | eval hn hs =>
    rw [Context.eval, Context.eval, hother]
    exact follows_ask rfl
  | @bindTo _ p s _ binding value hbinds hs haims =>
    obtain rfl := haims.eq_of_agrees hx
    have htask : (Task.bind x.context.toActivation p value s binding).WithinTree x.context.tree :=
      ⟨rfl, haimed.binds hbinds⟩
    rw [Context.bind, Context.bind, hother]
    exact fun w hw => (follows_ask htask w hw).andThen fun _ w' _ hw' => ⟨hw', trivial, rfl⟩
  | call callee receiver args => exact follows_ask trivial
  | loop testFirst hloops hs =>
    rw [Context.loop, Context.loop, hother]
    exact follows_ask rfl
  | bind hm hf ihm ihf => exact fun w hw => (ihm w hw).andThen fun b w' hb hw' => ihf b hb w' hw'
  | caught hm hf hstops ihm ihf =>
    refine fun w hw => (ihm w hw).caught (fun outcome w' hw' => ihf outcome w' hw') fun e w' => ?_
    rw [(hstops hpass e).1]
    rfl
  | raisedAt n hm ih => exact fun w hw => (ih w hw).raisedAt n
  | @opened _ _ n s _ f f' hn hs hf ih =>
    intro w hw
    obtain ⟨own, w', hown, hsame, heq, heq'⟩ := hx.openBlock hn s f f' w
    rw [heq, heq']
    exact ih own hown w' (hw.of_closures hsame)

end Eval

end ScriptCore

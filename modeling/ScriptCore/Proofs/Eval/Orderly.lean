import ScriptCore.Eval.Rule
import ScriptCore.Proofs.Eval.Contract
import ScriptCore.Proofs.Eval.Placement
import ScriptCore.Proofs.Tree.Grammar

/-!
# Orderly evaluation

The contract of evaluations of grammatical programs. A task is asked for a node of the kind that its
place requires, in the scope that the resolution stamped on the node's parent, and comes to an end that
its place allows: a value, a thrown value, a failure that is not one of a program put together wrongly
(unless a function of the host fails like that), or an exit that something around the node receives. All
closures of the world are those of functions in grammatical trees.
-/
namespace ScriptCore

/-- The failures of programs that are put together wrongly. -/
def Cause.isStructural : Cause → Bool
  | .malformedNode _ _ | .invalidAssignmentTarget _ | .illegalControlFlow _ => true
  | _ => false

/-- Some function of the host fails for the cause. -/
def Host.Raises (host : Host) (cause : Cause) : Prop :=
  ∃ name native receiver args w error, host.native name = some native ∧
    (native receiver args w).1 = .error error ∧ error.cause = cause

/-- The abrupt ends that may leave a place with the given exits. -/
def Jumps.Allows (host : Host) (j : Jumps) : Abrupt → Prop
  | .failure e => e.cause.isStructural = true → host.Raises e.cause
  | .returned _ => j.returns = true
  | .broke => j.breaks = true
  | .continued => j.continues = true
  | .threw _ => True

theorem Jumps.Allows.of_never {host : Host} {j : Jumps} {e : Abrupt} (h : Jumps.never.Allows host e) :
    j.Allows host e := by
  cases e with
  | failure e => exact h
  | threw value => trivial
  | _ => cases h

theorem Jumps.Allows.raisedAt {host : Host} {j : Jumps} {e : Abrupt} (node : NodeId)
    (h : j.Allows host e) : j.Allows host (e.raisedAt node) := by
  cases e <;> exact h

theorem Jumps.Allows.of_cause {host : Host} {j : Jumps} {cause : Cause}
    (h : cause.isStructural = false) : j.Allows host (.of cause) := by
  intro hstructural
  exact absurd hstructural (by simp [EvalError.of, h])

/-! ## Closures of grammatical functions -/

/-- A parameter of a function with the given body: its target and its default are grammatical, and do
not belong to the body. -/
structure Param.Sound (t : Tree) (body : NodeId) (p : Param) : Prop where
  target : t.Derives (.pattern true) p.target
  target_apart : ¬ t.Below body p.target
  default : ∀ d, p.default = some d → t.Derives .expression d ∧ ¬ t.Below body d

/-- The closure of a grammatical function. -/
structure Closure.Sound (c : Closure) : Prop where
  tree : c.tree.Proper
  function : Tag.isFunction (c.tree.tag c.node) = true
  held : c.body ∈ c.tree.held c.node
  body : c.tree.Derives .arrowBody c.body
  params : ∀ p ∈ c.params, p.Sound c.tree c.body

theorem Closure.Sound.body_lt {c : Closure} (h : c.Sound) : c.body < c.tree.size :=
  Nat.lt_trans (h.tree.lt_of_held h.held) (Tree.lt_size_of_held h.held)

/-- A world in which all closures are those of grammatical functions. -/
def World.Sound (w : World) : Prop := ∀ id closure, w.closure? id = some closure → closure.Sound

theorem World.sound_of_no_closures {w : World} (h : w.closures = #[]) : w.Sound := by
  intro id closure hclosure
  simp [closure?, h] at hclosure

theorem World.Sound.of_closures {w w' : World} (hw : w.Sound) (h : w'.closures = w.closures) :
    w'.Sound := by
  intro id closure hclosure
  rw [closure?, h] at hclosure
  exact hw id closure hclosure

theorem World.Sound.newClosure {w : World} (hw : w.Sound) {closure : Closure} (h : closure.Sound) :
    (w.newClosure closure).2.Sound := by
  intro id found hfound
  simp only [World.newClosure, closure?, Array.getElem?_push] at hfound
  split at hfound
  · cases hfound
    exact h
  · exact hw id found hfound

/-! ## The contract -/

/-- The kinds of nodes whose children are evaluated in the scope that the node is evaluated in. -/
def Tag.isPlain (tag : String) : Bool := !isBlock tag && !isFunction tag && tag != "CatchClause"

namespace Activation

/-- A node of a kind, placed in a scope. -/
structure At (a : Activation) (k : NodeKind) (n : NodeId) (s : ScopeId) : Prop where
  derives : a.tree.Derives k n
  placed : a.Placed n s

/-- A node of a kind that stands in a scope. -/
structure StandsAt (a : Activation) (k : NodeKind) (n : NodeId) (s : ScopeId) : Prop where
  derives : a.tree.Derives k n
  standing : a.Standing n s

end Activation

namespace Activation

variable {a : Activation} {k k' : NodeKind} {n child : NodeId} {s : ScopeId}

theorem isPlain_spec {tag : String} (h : Tag.isPlain tag = true) :
    Tag.isBlock tag = false ∧ Tag.isFunction tag = false ∧ tag ≠ "CatchClause" := by
  simpa [Tag.isPlain, and_assoc] using h

theorem StandsAt.at (h : a.StandsAt k n s) : a.At k n s := ⟨h.derives, h.standing.placed⟩

/-- A child of a plain node is placed where the node is. -/
theorem At.has (ha : a.Sound) (h : a.At k n s) (hplain : Tag.isPlain (a.tree.tag n) = true)
    (hchild : a.tree.Has n k' child) : a.At k' child s := by
  obtain ⟨hblock, hfunction, -⟩ := isPlain_spec hplain
  exact ⟨hchild.derives, h.placed.descend ha hblock hfunction hchild.visited⟩

/-- All that a plain node holds is placed where the node is. -/
theorem At.holds (ha : a.Sound) (h : a.At k n s) (hplain : Tag.isPlain (a.tree.tag n) = true) :
    ∃ slots, Grammar.production a.tree n k = some slots ∧
      a.tree.Holds n slots fun k child => a.At k child s := by
  obtain ⟨slots, hslots⟩ := h.derives.exists_production
  exact ⟨slots, hslots, (h.derives.holds hslots).mono fun _ _ hchild => h.has ha hplain hchild⟩

theorem isClosed_of_plain {tag : String} (h : Tag.isPlain tag = true) : Tag.isClosed tag = false := by
  obtain ⟨hblock, hfunction, -⟩ := isPlain_spec h
  have hbody : tag ≠ "ClassBody" := by
    rintro rfl
    cases hblock
  simp [Tag.isClosed, hfunction, hbody]

/-- A child of a plain node that stands in a scope stands there too. -/
theorem StandsAt.has (ha : a.Sound) (h : a.StandsAt k n s) (hplain : Tag.isPlain (a.tree.tag n) = true)
    (hchild : a.tree.Has n k' child) : a.StandsAt k' child s := by
  obtain ⟨hblock, -, hclause⟩ := isPlain_spec hplain
  refine ⟨hchild.derives,
    (h.standing.entered ha hblock).standing ha (isClosed_of_plain hplain) hchild.visited ?_⟩
  rintro (⟨htag, -⟩ | ⟨htag, -⟩)
  · rw [htag] at hblock
    cases hblock
  · exact hclause htag

theorem StandsAt.holds (ha : a.Sound) (h : a.StandsAt k n s)
    (hplain : Tag.isPlain (a.tree.tag n) = true) :
    ∃ slots, Grammar.production a.tree n k = some slots ∧
      a.tree.Holds n slots fun k child => a.StandsAt k child s := by
  obtain ⟨slots, hslots⟩ := h.derives.exists_production
  exact ⟨slots, hslots, (h.derives.holds hslots).mono fun _ _ hchild => h.has ha hplain hchild⟩

end Activation

/-- A loop in a scope, with the exit `return` or without. -/
structure Loop.Fits (l : Loop) (a : Activation) (s : ScopeId) (returns : Bool) : Prop where
  test : ∀ n, l.test = some n → a.At .expression n s
  body : a.StandsAt (.statement ⟨true, true, returns⟩) l.body s
  update : ∀ n, l.update = some n → a.At .expression n s

/-- What a task is asked for, with the exits that may leave it. -/
def Task.Fits : Task → Jumps → Prop
  | .eval a n s, j => a.Sound ∧
    (j = .never ∧ a.At .expression n s ∨ a.StandsAt (.statement j) n s ∨
      j = .never ∧ a.StandsAt .program n s)
  | .bind a pattern _ s binding, j => a.Sound ∧ j = .never ∧ a.At (.pattern binding.declares) pattern s
  | .call _ _ _ _, j => j = .never
  | .loop a l s _, j => a.Sound ∧ ∃ returns, j = ⟨false, false, returns⟩ ∧ l.Fits a s returns

/-- The contract of orderly evaluations. -/
def orderly (host : Host) : Contract where
  inv := World.Sound
  asks task := ∃ j, task.Fits j
  gives task outcome := ∀ j, task.Fits j → ∀ e, outcome = .error e → j.Allows host e

/-! ## Steps -/

namespace Eval

variable {α β : Type} {host : Host} {j : Jumps}

/-- A step is orderly and leaves by the given exits only. -/
def Behaves (host : Host) (j : Jumps) (m : Eval α) : Prop :=
  m.Keeps (orderly host) (fun _ => True) (j.Allows host)

theorem Behaves.bind {m : Eval β} {f : β → Eval α} (hm : m.Behaves host j)
    (hf : ∀ b, (f b).Behaves host j) : (m >>= f).Behaves host j := Keeps.bind hm fun b _ => hf b

theorem behaves_pure (a : α) : (pure a : Eval α).Behaves host j := keeps_pure trivial

theorem behaves_abrupt {e : Abrupt} (h : j.Allows host e) : (abrupt e : Eval α).Behaves host j :=
  keeps_abrupt h

theorem behaves_fail {cause : Cause} (h : cause.isStructural = false) :
    (fail cause : Eval α).Behaves host j := keeps_fail (.of_cause h)

theorem behaves_reads (f : World → α) : (reads f).Behaves host j := keeps_reads fun _ _ => trivial

theorem behaves_checks {f : World → Except Cause α}
    (h : ∀ w cause, f w = .error cause → cause.isStructural = false) : (checks f).Behaves host j :=
  keeps_checks (fun _ _ _ => trivial) fun w cause hw => .of_cause (h w cause hw)

/-- Making something other than a closure. -/
theorem behaves_makes {f : World → α × World} (h : ∀ w, (f w).2.closures = w.closures) :
    (makes f).Behaves host j :=
  keeps_makes fun w hw => ⟨World.Sound.of_closures hw (h w), trivial⟩

theorem behaves_attempts {f : World → Except Cause α × World}
    (h : ∀ w, (f w).2.closures = w.closures)
    (herror : ∀ w cause, (f w).1 = .error cause → cause.isStructural = false) :
    (attempts f).Behaves host j :=
  keeps_attempts (fun w hw => World.Sound.of_closures hw (h w)) (fun _ _ _ => trivial) fun w cause hw =>
    .of_cause (herror w cause hw)

theorem behaves_risks {f : World → Option (Except Cause α × World)}
    (h : ∀ w r, f w = some r → r.2.closures = w.closures)
    (herror : ∀ w cause w', f w = some (.error cause, w') → cause.isStructural = false) :
    (risks f).Behaves host j :=
  keeps_risks (fun w r hw hr => World.Sound.of_closures hw (h w r hr)) (fun _ _ _ _ => trivial)
    fun w cause w' hw => .of_cause (herror w cause w' hw)

theorem behaves_scopes (f : ScopeGraph → ScopeGraph) : (scopes f).Behaves host j :=
  keeps_modifies (fun _ hw => World.Sound.of_closures hw rfl) trivial

theorem Behaves.raisedAt {m : Eval α} (hm : m.Behaves host j) (node : NodeId) :
    (m.raisedAt node).Behaves host j := Keeps.raisedAt hm fun _ h => h.raisedAt node

/-- A step that no exit leaves behaves anywhere. -/
theorem Behaves.of_never {m : Eval α} (hm : m.Behaves host .never) : m.Behaves host j :=
  hm.mono (fun _ => id) fun _ h => .of_never h

/-- The outcome of a step is one that its exits allow. -/
theorem Behaves.catching {inner : Jumps} {m : Eval α} (hm : m.Behaves host inner) :
    m.catching.Keeps (orderly host) (fun outcome => ∀ e, outcome = .error e → inner.Allows host e)
      (j.Allows host) := by
  refine (Keeps.catching hm).mono (fun outcome houtcome => ?_) fun _ => id
  rintro e rfl
  exact houtcome

/-- A step whose exits are looked at, one by one. -/
theorem Behaves.catching_bind {inner : Jumps} {m : Eval β} {f : Except Abrupt β → Eval α}
    (hm : m.Behaves host inner) (hok : ∀ b, (f (.ok b)).Behaves host j)
    (herror : ∀ e, inner.Allows host e → (f (.error e)).Behaves host j) :
    (m.catching >>= f).Behaves host j :=
  Keeps.bind hm.catching fun
    | .ok b, _ => hok b
    | .error e, he => herror e (he e rfl)

end Eval

namespace Context

open Eval

variable {host : Host} {c : Context} {k : NodeKind} {n : NodeId} {s : ScopeId} {j : Jumps}
  {slots : List Slot}

theorem behaves_ask {task : Task} {inner : Jumps} (h : task.Fits inner)
    (hj : ∀ e, inner.Allows host e → j.Allows host e) : (ask task).Behaves host j :=
  keeps_ask ⟨inner, h⟩ (fun _ _ => trivial) fun e he => hj e (he inner h e rfl)

theorem behaves_eval (ha : c.Sound) (h : c.At .expression n s) : (c.eval n s).Behaves host j := by
  have hfits : (Task.eval c.toActivation n s).Fits .never := ⟨ha, Or.inl ⟨rfl, h⟩⟩
  exact behaves_ask hfits fun _ => .of_never

theorem behaves_evalStatement (ha : c.Sound) (h : c.StandsAt (.statement j) n s) :
    (c.eval n s).Behaves host j := by
  have hfits : (Task.eval c.toActivation n s).Fits j := ⟨ha, Or.inr (Or.inl h)⟩
  exact behaves_ask hfits fun _ => id

theorem behaves_bind (ha : c.Sound) {binding : Binding} (h : c.At (.pattern binding.declares) n s)
    (value : Value) : (c.bind n value s binding).Behaves host j := by
  have hfits : (Task.bind c.toActivation n value s binding).Fits .never := ⟨ha, rfl, h⟩
  exact (behaves_ask hfits fun _ => .of_never).bind fun _ => behaves_pure ()

theorem behaves_call (callee receiver : Value) (args : List Value) :
    (c.call callee receiver args).Behaves host j := by
  have hfits : (Task.call c.depth callee receiver args).Fits .never := rfl
  exact behaves_ask hfits fun _ => .of_never

theorem behaves_loop (ha : c.Sound) {l : Loop} (h : l.Fits c.toActivation s j.returns)
    (testFirst : Bool) : (c.loop l s testFirst).Behaves host j := by
  have hfits : (Task.loop c.toActivation l s testFirst).Fits ⟨false, false, j.returns⟩ :=
    ⟨ha, j.returns, rfl, h⟩
  refine behaves_ask hfits fun e he => ?_
  cases e with
  | broke => cases he
  | continued => cases he
  | _ => exact he

theorem keeps_child {key : String} {child : NodeId} (h : c.tree.child? n key = some child) :
    (c.require n key).Keeps (orderly host) (fun found => found = child) (j.Allows host) := by
  rw [require, h]
  exact keeps_pure rfl

/-- A child that a production requires is there. -/
theorem keeps_require {P : NodeKind → NodeId → Prop} {key : String} (h : c.tree.Holds n slots P)
    (hmem : ⟨.one, key, k⟩ ∈ slots) :
    (c.require n key).Keeps (orderly host) (P k) (j.Allows host) := by
  obtain ⟨child, hchild, hP⟩ := h.one hmem
  exact (keeps_child hchild).mono (fun _ hfound => hfound ▸ hP) fun _ => id

theorem keeps_operator {op : String} (h : c.tree.text? n "operator" = some op) :
    (c.operator n).Keeps (orderly host) (fun found => found = op) (j.Allows host) := by
  rw [operator, h]
  exact keeps_pure rfl

theorem behaves_operator (h : (c.tree.text? n "operator").isSome = true) :
    (c.operator n).Behaves host j := by
  obtain ⟨op, hop⟩ := Option.isSome_iff_exists.mp h
  exact (keeps_operator hop).mono (fun _ _ => trivial) fun _ => id

end Context

end ScriptCore

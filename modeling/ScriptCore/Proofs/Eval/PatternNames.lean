import ScriptCore.Host.Standard
import ScriptCore.Proofs.Eval.Ending
import ScriptCore.Proofs.Eval.OrderlyCall
import ScriptCore.Proofs.Eval.Stretch
import ScriptCore.Proofs.Tree.Pattern

/-!
# The names that a binding declares

The hoisting reads the names of a pattern off the tree; the evaluator goes through the pattern with a value
in hand, skips holes, evaluates keys and defaults, and gathers what is left. Both come to the same names in
the same order (`Evaluator.binding_declares`).

What a binding does itself are the stretches of its own task and of the bindings that it asks for
(`Evaluator.bindingStretches`), which are among those of the run (`Evaluator.bindingStretches_sublist`); what
goes on in evaluations is between them.
-/
namespace ScriptCore

/-! ## What a binding does itself -/

/-- The name and the value that a binding declares, and the scope it does so in, if its pattern is an
identifier. -/
def Task.declared? : Task → Option (ScopeId × String × Value)
  | .bind a p value _ (.declare target) => (a.tree.identifierName? p).map fun name => (target, name, value)
  | _ => none

/-- The stretches of a computation that carries out a task and has come from a world. Between them are those
of the tasks that it asks for, as `inner` gives them. -/
def Computation.stretches (ev : Evaluator) (steps : Nat) (inner : Task → World → List Stretch) (task : Task) :
    World → Computation Ending → List Stretch
  | origin, .done _ w => [⟨task, origin, w⟩]
  | origin, .ask next w resume =>
    ⟨task, origin, w⟩ :: inner next w ++
      match ev.perform steps next w with
      | .ended (outcome, w₁) => (resume outcome w₁).stretches ev steps inner task w₁
      | .brokeOff | .outOfSteps => []
  | _, .brokenOff => []

/-- The stretches of a binding and of the bindings that it asks for, within a number of steps; those of
evaluations are left out. -/
def Evaluator.bindingStretches (ev : Evaluator) : Nat → Task → World → List Stretch
  | steps + 1, .bind a p value s binding, w =>
    (ev.carryOut (.bind a p value s binding) w).stretches ev steps (ev.bindingStretches steps)
      (.bind a p value s binding) w
  | _, _, _ => []

namespace Evaluator

variable {ev : Evaluator} {steps : Nat}

/-- More steps than a run takes do not make more stretches. -/
theorem stretches_add {task : Task} {w₀ : World} {c : Computation Ending} {stack : List (Task × Waiting)}
    {result : Except Abrupt Value × World} (h : ev.run steps c (stack.map Prod.snd) = .ended result) (more : Nat) :
    ev.stretches (steps + more) task w₀ c stack = ev.stretches steps task w₀ c stack := by
  fun_induction stretches ev steps task w₀ c stack with
  | case1 => cases h
  | case2 steps task w₀ next w resume stack ih | case3 steps task w₀ next w stack ih
  | case4 steps task w₀ value w caller resume stack ih | case5 steps task w₀ e w caller resume stack ih =>
    rw [Nat.succ_add]
    exact congrArg _ (ih h)
  | case6 steps task w₀ outcome w hvalue =>
    rw [Nat.succ_add]
    cases outcome with
    | error e => rfl
    | ok ending =>
      cases ending with
      | value value => rfl
      | handOver next => exact absurd rfl (hvalue next)
  | case7 => cases h

/-- A run on a deeper stack has its own stretches first, and goes on with what waits beneath. -/
theorem stretches_append {task : Task} {w₀ w' : World} {c : Computation Ending} {top : List (Task × Waiting)}
    {outcome : Except Abrupt Value} (h : ev.run steps c (top.map Prod.snd) = .ended (outcome, w'))
    (caller : Task) (resume : Waiting) (rest : List (Task × Waiting)) :
    ∃ more < steps,
      ev.stretches steps task w₀ c (top ++ (caller, resume) :: rest) =
        ev.stretches steps task w₀ c top ++ ev.stretches more caller w' (resume outcome w') rest ∧
      ev.run steps c ((top ++ (caller, resume) :: rest).map Prod.snd) =
        ev.run more (resume outcome w') (rest.map Prod.snd) := by
  fun_induction stretches ev steps task w₀ c top with
  | case1 => cases h
  | case2 steps task w₀ next w inner stack ih | case3 steps task w₀ next w stack ih
  | case4 steps task w₀ value w next inner stack ih | case5 steps task w₀ e w next inner stack ih =>
    obtain ⟨more, hmore, hstretches, hrun⟩ := ih h
    exact ⟨more, Nat.lt_succ_of_lt hmore, congrArg _ hstretches, hrun⟩
  | case6 steps task w₀ result w hvalue =>
    cases result with
    | error e =>
      cases h
      exact ⟨steps, Nat.lt_succ_self _, rfl, rfl⟩
    | ok ending =>
      cases ending with
      | value value =>
        cases h
        exact ⟨steps, Nat.lt_succ_self _, rfl, rfl⟩
      | handOver next => exact absurd rfl (hvalue next)
  | case7 => cases h

/-- The stretches of a computation are stretches of its run, if those between them are. -/
theorem stretches_sublist {inner : Task → World → List Stretch} {task : Task}
    (hinner : ∀ next w result, ev.perform steps next w = .ended result →
      (inner next w).Sublist (ev.stretchesOf steps next w))
    {c : Computation Ending} {w₀ : World} {used : Nat} {result : Except Abrupt Value × World}
    (hused : used ≤ steps + 1) (hrun : ev.run used c [] = .ended result) :
    (c.stretches ev steps inner task w₀).Sublist (ev.stretches used task w₀ c []) := by
  induction c generalizing w₀ used with
  | brokenOff => exact List.nil_sublist _
  | done outcome w =>
    cases used with
    | zero => cases hrun
    | succ used =>
      cases outcome with
      | error e => exact List.Sublist.refl _
      | ok ending =>
        cases ending with
        | value value => exact List.Sublist.refl _
        | handOver next => exact (List.nil_sublist _).cons_cons _
  | ask next w resume ih =>
    cases used with
    | zero => cases hrun
    | succ used =>
      obtain ⟨given, w₁, -, -, hperform, -⟩ := @run_split ev used (ev.carryOut next w) [] [resume] result hrun
      obtain ⟨more, hmore, hstretches, hresumed⟩ :=
        @stretches_append ev used next w w₁ (ev.carryOut next w) [] given hperform task resume []
      obtain ⟨extra, rfl⟩ := Nat.exists_eq_add_of_le (Nat.le_of_succ_le_succ hused)
      have hwithin : ev.perform (used + extra) next w = .ended (given, w₁) := by
        rw [perform, run_add (by rw [hperform]; simp), hperform]
      have hown : ev.stretchesOf (used + extra) next w = ev.stretches used next w (ev.carryOut next w) [] :=
        stretches_add hperform extra
      have hend : ev.run more (resume given w₁) [] = .ended result := by
        rw [← List.map_nil (f := Prod.snd), ← hresumed]
        exact hrun
      rw [Computation.stretches, hwithin]
      have hfirst := hinner next w _ hwithin
      rw [hown] at hfirst
      have hboth := hfirst.append (@ih given w₁ w₁ more (by omega) hend)
      rw [← hstretches] at hboth
      exact hboth.cons_cons _

/-- The stretches of a binding are stretches of the run, in order. -/
theorem bindingStretches_sublist {task : Task} {w : World} {result : Except Abrupt Value × World}
    (h : ev.perform steps task w = .ended result) :
    (ev.bindingStretches steps task w).Sublist (ev.stretchesOf steps task w) := by
  induction steps generalizing task w result with
  | zero => cases h
  | succ steps ih =>
    cases task with
    | bind a p value s binding =>
      exact stretches_sublist (fun next w result hperform => ih hperform) (Nat.le_refl _) h
    | _ => exact List.nil_sublist _

end Evaluator

/-- Stretches declare names in a scope in turn: each that binds an identifier declares its name, and the
others leave the scopes as they are. -/
inductive Declares (target : ScopeId) : List Stretch → List String → Prop
  | nil : Declares target [] []
  | silent {s : Stretch} {rest : List Stretch} {names : List String} (htask : s.task.declared? = none)
    (hscopes : s.stop.scopes = s.start.scopes) (hrest : Declares target rest names) :
    Declares target (s :: rest) names
  | name {s : Stretch} {name : String} {value : Value} {rest : List Stretch} {names : List String}
    (htask : s.task.declared? = some (target, name, value))
    (hscopes : s.stop.scopes = s.start.scopes.declare target name value) (hrest : Declares target rest names) :
    Declares target (s :: rest) (name :: names)

variable {target : ScopeId}

theorem Declares.append {first second : List Stretch} {names names' : List String}
    (hfirst : Declares target first names) (hsecond : Declares target second names') :
    Declares target (first ++ second) (names ++ names') := by
  induction hfirst with
  | nil => exact hsecond
  | silent htask hscopes _ ih => exact .silent htask hscopes ih
  | name htask hscopes _ ih => exact .name htask hscopes ih

/-! ## Asking for names in turn -/

namespace Computation

variable {α β : Type} {asks : Task → List String → Prop}

/-- A computation that has come from a world leaves the scopes alone and, if nothing fails, asks for tasks
that declare the given names in turn. -/
def Relays (asks : Task → List String → Prop) : World → List String → Computation α → Prop
  | origin, names, .done (.ok _) w => w.scopes = origin.scopes ∧ names = []
  | _, _, .done (.error _) _ => True
  | origin, names, .ask task w resume => w.scopes = origin.scopes ∧
    ∃ first rest, names = first ++ rest ∧ asks task first ∧
      (∀ value w', (resume (.ok value) w').Relays asks w' rest) ∧
      ∀ e w', resume (.error e) w' = .done (.error e) w'
  | _, _, .brokenOff => True

variable {c : Computation α} {w₀ w₁ : World} {names : List String}

theorem Relays.since (h : c.Relays asks w₁ names) (hscopes : w₁.scopes = w₀.scopes) :
    c.Relays asks w₀ names := by
  cases c with
  | done outcome w =>
    cases outcome with
    | ok a => exact ⟨h.1.trans hscopes, h.2⟩
    | error e => trivial
  | ask task w resume => exact ⟨h.1.trans hscopes, h.2⟩
  | brokenOff => trivial

theorem Relays.andThen {f : α → World → Computation β} {names' : List String} (h : c.Relays asks w₀ names)
    (hf : ∀ a w, (f a w).Relays asks w names') : (c.andThen f).Relays asks w₀ (names ++ names') := by
  induction c generalizing w₀ names with
  | done outcome w =>
    cases outcome with
    | ok a =>
      obtain ⟨hscopes, rfl⟩ := h
      exact (hf a w).since hscopes
    | error e => trivial
  | ask task w resume ih =>
    obtain ⟨hscopes, first, rest, rfl, hasks, hvalue, herror⟩ := h
    refine ⟨hscopes, first, rest ++ names', List.append_assoc _ _ _, hasks, fun value w' =>
      ih (.ok value) w' (hvalue value w'), fun e w' => ?_⟩
    simp only [herror]
    rfl
  | brokenOff => trivial

end Computation

namespace Eval

variable {α β : Type} {asks : Task → List String → Prop} {names names' : List String}

/-- From every world, a step asks for tasks that declare the given names in turn. -/
def Relays (asks : Task → List String → Prop) (names : List String) (m : Eval α) : Prop :=
  ∀ w, (m w).Relays asks w names

theorem Relays.bind {m : Eval α} {f : α → Eval β} (hm : m.Relays asks names)
    (hf : ∀ a, (f a).Relays asks names') : (m >>= f).Relays asks (names ++ names') := fun w =>
  (hm w).andThen fun a w' => hf a w'

theorem relays_pure (a : α) : (pure a : Eval α).Relays asks [] := fun _ => ⟨rfl, rfl⟩

theorem relays_fail (cause : Cause) : (fail cause : Eval α).Relays asks names := fun _ => trivial

theorem relays_reads (f : World → α) : (reads f).Relays asks [] := fun _ => ⟨rfl, rfl⟩

theorem relays_checks (f : World → Except Cause α) : (checks f).Relays asks [] := by
  intro w
  rw [checks]
  split
  · exact ⟨rfl, rfl⟩
  · trivial

theorem relays_makes {f : World → α × World} (h : ∀ w, (f w).2.scopes = w.scopes) :
    (makes f).Relays asks [] := fun w => ⟨h w, rfl⟩

theorem relays_ask {task : Task} (h : asks task names) : (ask task).Relays asks names := fun _ =>
  ⟨rfl, names, [], (List.append_nil names).symm, h, fun _ _ => ⟨rfl, rfl⟩, fun _ _ => rfl⟩

end Eval

/-- What a binding of an activation may ask for: evaluations, and bindings of patterns in the same scope,
which declare their names. -/
def Activation.Asks (a : Activation) (target : ScopeId) : Task → List String → Prop
  | .bind b p _ _ binding, names =>
    b = a ∧ binding = .declare target ∧ a.tree.IsPattern p ∧ names = a.tree.bindingNames p
  | .eval _ _ _, names => names = []
  | _, _ => False

namespace Context

open Eval

variable {c : Context} {s target : ScopeId} {n : NodeId} {names : List String}

theorem relays_require {α : Type} {key : String} {f : NodeId → Eval α}
    (h : ∀ child, c.tree.child? n key = some child → (f child).Relays (c.Asks target) names) :
    (c.require n key >>= f).Relays (c.Asks target) names := by
  rw [require]
  split
  next child hchild => exact h child hchild
  · exact fun w => trivial

theorem relays_eval : (c.eval n s).Relays (c.Asks target) [] := relays_ask rfl

theorem relays_bind (h : c.tree.IsPattern n) (value : Value) :
    (c.bind n value s (.declare target)).Relays (c.Asks target) (c.tree.bindingNames n) := by
  have hask : (ask (.bind c.toActivation n value s (.declare target))).Relays (c.Asks target)
      (c.tree.bindingNames n) := relays_ask ⟨rfl, rfl, h, rfl⟩
  have hdone := hask.bind fun _ => relays_pure ()
  rw [List.append_nil] at hdone
  exact hdone

theorem relays_propertyKey {field : String} : (c.propertyKey n field s).Relays (c.Asks target) [] := by
  refine relays_require fun key _ => ?_
  split
  · exact relays_pure _
  · exact relays_eval.bind fun _ => relays_reads _

/-- What a rest element binds. -/
theorem isPattern_argument (h : c.tree.IsPattern n) (htag : c.tree.is n "RestElement" = true)
    {argument : NodeId} (hargument : c.tree.child? n "argument" = some argument) :
    c.tree.IsPattern argument := by
  have htag := eq_of_beq htag
  cases h with
  | rest _ h => exact h argument hargument
  | identifier h | withDefault h | object h | array h =>
    rw [htag] at h
    exact absurd h (by decide)

theorem relays_bindElements (ht : c.tree.Proper) {elements : List (Option NodeId)}
    (hlast : ∀ front element back, elements = front ++ some element :: back →
      c.tree.tag element = "RestElement" → back = [])
    (helements : ∀ element, some element ∈ elements → c.tree.IsPattern element) (items : List Value) :
    (c.bindElements items s (.declare target) elements).Relays (c.Asks target)
      ((elements.filterMap fun item => item).flatMap c.tree.bindingNames) := by
  induction elements generalizing items with
  | nil => exact relays_pure ()
  | cons element rest ih =>
    have hrest := ih (fun front element' back hsplit => hlast (element :: front) element' back (by
      rw [hsplit, List.cons_append])) fun element hmem => helements element (List.mem_cons_of_mem _ hmem)
    cases element with
    | none => exact hrest _
    | some element =>
      have hpattern := helements element List.mem_cons_self
      have hpresent : (some element :: rest).filterMap (fun item => item) =
          element :: rest.filterMap fun item => item := rfl
      rw [bindElements, hpresent, List.flatMap_cons]
      split
      next htag =>
        obtain rfl := hlast [] element rest rfl (eq_of_beq htag)
        refine relays_require fun argument hargument => ?_
        have hmakes : (makes fun w => w.newArray items.toArray).Relays (c.Asks target) [] :=
          relays_makes fun _ => rfl
        have hbind := hmakes.bind fun gathered =>
          relays_bind (s := s) (isPattern_argument hpattern htag hargument) gathered
        rw [ht.bindingNames_rest (eq_of_beq htag) hargument]
        rw [List.filterMap_nil, List.flatMap_nil, List.append_nil]
        exact hbind
      next htag => exact (relays_bind hpattern _).bind fun _ => hrest _

theorem relays_bindProperties (ht : c.tree.Proper) {members : List NodeId}
    (hmembers : ∀ member ∈ members, c.tree.tag member = "Property" ∨ c.tree.tag member = "RestElement")
    (hvalues : ∀ member ∈ members, c.tree.tag member = "Property" →
      ∀ value, c.tree.child? member "value" = some value → c.tree.IsPattern value)
    (hrests : ∀ member ∈ members, c.tree.tag member = "RestElement" → c.tree.IsPattern member)
    (value : Value) (used : List String) :
    (c.bindProperties value s (.declare target) used members).Relays (c.Asks target)
      (members.flatMap c.tree.memberNames) := by
  induction members generalizing used with
  | nil => exact relays_pure ()
  | cons member rest ih =>
    obtain ⟨hmember, hmembers⟩ := List.forall_mem_cons.mp hmembers
    obtain ⟨hvalue, hvalues⟩ := List.forall_mem_cons.mp hvalues
    obtain ⟨hrest, hrests⟩ := List.forall_mem_cons.mp hrests
    have hothers := ih hmembers hvalues hrests
    rw [bindProperties, List.flatMap_cons]
    split
    next htag =>
      have hnames : c.tree.memberNames member = c.tree.bindingNames member := by
        simp [Tree.memberNames, Tree.is, eq_of_beq htag]
      refine relays_require fun argument hargument => ?_
      rw [hnames, ht.bindingNames_rest (eq_of_beq htag) hargument]
      have hmakes : (makes fun w => w.newObject (unusedFields w value used)).Relays (c.Asks target) [] :=
        relays_makes fun _ => rfl
      exact hmakes.bind fun gathered =>
        (relays_bind (isPattern_argument (hrest (eq_of_beq htag)) htag hargument) gathered).bind fun _ =>
          hothers used
    next htag =>
      have hproperty : c.tree.tag member = "Property" :=
        hmember.resolve_right fun h => htag (by rw [Tree.is, h]; rfl)
      refine relays_propertyKey.bind fun key => relays_require fun part hpart => ?_
      have hnames : c.tree.memberNames member = c.tree.bindingNames part := by
        simp [Tree.memberNames, Tree.is, hproperty, hpart]
      rw [hnames]
      exact (relays_checks _).bind fun item =>
        (relays_bind (hvalue hproperty part hpart) item).bind fun _ => hothers _

/-- A pattern that is no identifier asks for its names in turn. -/
theorem relays_bindPattern (ht : c.tree.Proper) (h : c.tree.IsPattern n)
    (htag : c.tree.tag n ≠ "Identifier") (value : Value) :
    (c.bindPattern n value s (.declare target)).Relays (c.Asks target) (c.tree.bindingNames n) := by
  cases h with
  | identifier h => exact absurd h htag
  | withDefault h hleft =>
    simp only [bindPattern, h]
    refine relays_require fun left hchild => ?_
    rw [ht.bindingNames_eq n]
    simp only [h, hchild]
    have hpattern := hleft left hchild
    split
    · exact relays_require fun right _ => relays_eval.bind fun value => relays_bind hpattern value
    · exact relays_bind hpattern value
  | rest h _ =>
    simp only [bindPattern, h]
    exact relays_fail _
  | object h hmembers hvalues hrests =>
    simp only [bindPattern, h]
    rw [ht.bindingNames_eq n]
    simp only [h]
    exact relays_bindProperties ht hmembers hvalues hrests value []
  | array h hlast helements =>
    simp only [bindPattern, h]
    rw [ht.bindingNames_eq n]
    simp only [h]
    exact (relays_checks _).bind fun items => relays_bindElements ht hlast (fun element hmem =>
      helements element (Tree.mem_present hmem)) items

end Context

namespace Evaluator

variable {ev : Evaluator} {steps : Nat} {target : ScopeId}

/-- A run goes on from what it asks for within the same number of steps. -/
theorem run_ask_again {task : Task} {w : World} {resume : Waiting} {result : Except Abrupt Value × World}
    (h : ev.run (steps + 1) (.ask task w resume) [] = .ended result) :
    ∃ given w₁, ev.perform steps task w = .ended (given, w₁) ∧
      ev.run (steps + 1) (resume given w₁) [] = .ended result := by
  obtain ⟨used, given, w₁, more, hused, hmore, hperform, hrest, -⟩ := run_ask_ended h
  have hwithin {n m : Nat} (hle : n ≤ m) {c : Computation Ending} {r : Except Abrupt Value × World}
      (hr : ev.run n c [] = .ended r) : ev.run m c [] = .ended r := by
    obtain ⟨k, rfl⟩ := Nat.exists_eq_add_of_le hle
    rw [run_add (by rw [hr]; simp), hr]
  exact ⟨given, w₁, hwithin (Nat.le_of_lt_succ hused) hperform, hwithin (Nat.le_of_lt hmore) hrest⟩

/-- If what is asked for declares its names, then the stretches of a computation that asks for names in turn
declare them all. -/
theorem declares_stretches {asks : Task → List String → Prop} {inner : Task → World → List Stretch}
    {task : Task} (htask : task.declared? = none)
    (hinner : ∀ next names w value w₁, asks next names → ev.perform steps next w = .ended (.ok value, w₁) →
      Declares target (inner next w) names)
    {c : Computation Ending} {w₀ w' : World} {names : List String} {value : Value}
    (hc : c.Relays asks w₀ names) (hrun : ev.run (steps + 1) c [] = .ended (.ok value, w')) :
    Declares target (c.stretches ev steps inner task w₀) names := by
  induction c generalizing w₀ names with
  | done outcome w =>
    cases outcome with
    | ok ending =>
      obtain ⟨hscopes, rfl⟩ := hc
      exact .silent htask hscopes .nil
    | error e => cases hrun
  | ask next w resume ih =>
    obtain ⟨hscopes, first, rest, rfl, hasks, hvalue, herror⟩ := hc
    obtain ⟨given, w₁, hperform, hrest⟩ := run_ask_again hrun
    rw [Computation.stretches, hperform]
    -- a part that failed would have failed the whole binding
    cases given with
    | ok given =>
      exact .silent htask hscopes ((hinner next first w given w₁ hasks hperform).append
        (ih (.ok given) w₁ (hvalue given w₁) hrest))
    | error e =>
      rw [herror] at hrest
      cases hrest
  | brokenOff => cases hrun

/-- To bind an identifier is to declare its name. -/
theorem carryOut_identifier {a : Activation} {p : NodeId} {name : String}
    (hname : a.tree.identifierName? p = some name) (value : Value) (s : ScopeId) (w : World) :
    ev.carryOut (.bind a p value s (.declare target)) w =
      .done (.ok (.value .undefined)) (w.modifyScopes fun g => g.declare target name value) := by
  have htag := Tree.tag_of_identifierName? hname
  have hpattern : (ev.context a).bindPattern p value s (.declare target) =
      Eval.scopes fun g => g.declare target name value := by
    have htag' : (ev.context a).tree.tag p = "Identifier" := htag
    have hname' : (ev.context a).tree.identifierName? p = some name := hname
    simp only [Context.bindPattern, htag', hname']
    rfl
  rw [carryOut, hpattern]
  rfl

/-- Only an identifier with a name is bound. -/
theorem exists_identifierName? {a : Activation} {p : NodeId} (htag : a.tree.tag p = "Identifier")
    {value result : Value} {s : ScopeId} {w w' : World}
    (h : ev.perform (steps + 1) (.bind a p value s (.declare target)) w = .ended (.ok result, w')) :
    ∃ name, a.tree.identifierName? p = some name := by
  cases hname : a.tree.identifierName? p with
  | some name => exact ⟨name, rfl⟩
  | none =>
    have hpattern : (ev.context a).bindPattern p value s (.declare target) =
        Context.lacks "Identifier" "name" := by
      have htag' : (ev.context a).tree.tag p = "Identifier" := htag
      have hname' : (ev.context a).tree.identifierName? p = none := hname
      simp only [Context.bindPattern, htag', hname']
    rw [perform, carryOut, hpattern] at h
    cases h

/-- The stretches of a binding that succeeds declare the names of its pattern. -/
theorem declares_bindingStretches {a : Activation} (ht : a.tree.Proper) {p : NodeId} (hp : a.tree.IsPattern p)
    {value result : Value} {s : ScopeId} {w w' : World}
    (h : ev.perform steps (.bind a p value s (.declare target)) w = .ended (.ok result, w')) :
    Declares target (ev.bindingStretches steps (.bind a p value s (.declare target)) w)
      (a.tree.bindingNames p) := by
  -- on the steps, since what a binding asks for is performed within fewer of them
  induction steps generalizing p value s w result w' with
  | zero => cases h
  | succ steps ih =>
    by_cases htag : a.tree.tag p = "Identifier"
    · obtain ⟨name, hname⟩ := exists_identifierName? htag h
      have hnames : a.tree.bindingNames p = [name] := by
        rw [ht.bindingNames_eq p]
        simp [htag, hname]
      rw [hnames, bindingStretches, carryOut_identifier hname]
      have hdeclared : Task.declared? (.bind a p value s (.declare target)) = some (target, name, value) := by
        rw [Task.declared?, hname]
        rfl
      exact .name hdeclared rfl .nil
    · have hname : a.tree.identifierName? p = none := by
        rw [Tree.identifierName?, if_neg (by simpa [Tree.is] using htag)]
      have htask : Task.declared? (.bind a p value s (.declare target)) = none := by
        rw [Task.declared?, hname]
        rfl
      have hpattern : ((ev.context a).bindPattern p value s (.declare target)).Relays (a.Asks target)
          (a.tree.bindingNames p) := Context.relays_bindPattern (c := ev.context a) ht hp htag value
      have hrelays := (hpattern.bind fun _ => Eval.relays_pure (Ending.value .undefined)) w
      rw [List.append_nil] at hrelays
      refine declares_stretches htask (fun next names w₁ given w₂ hasks hperform => ?_) hrelays h
      cases next with
      | bind b q item s' binding =>
        obtain ⟨rfl, rfl, hq, rfl⟩ := hasks
        exact ih hq hperform
      | eval b n s' =>
        obtain rfl : names = [] := hasks
        cases steps <;> exact .nil
      | call _ _ _ _ => exact hasks.elim
      | loop _ _ _ _ => exact hasks.elim

/-- **A binding declares the names of its pattern.** If it succeeds, then what it does itself is to declare in
its scope the names that the hoisting reads off the pattern, one after another; and what it does itself is part of
what the run does, in this order. -/
theorem binding_declares {a : Activation} (ht : a.tree.Proper) {p : NodeId} (hp : a.tree.IsPattern p)
    {value result : Value} {s : ScopeId} {w w' : World}
    (h : ev.perform steps (.bind a p value s (.declare target)) w = .ended (.ok result, w')) :
    Declares target (ev.bindingStretches steps (.bind a p value s (.declare target)) w)
      (a.tree.bindingNames p) ∧
    (ev.bindingStretches steps (.bind a p value s (.declare target)) w).Sublist
      (ev.stretchesOf steps (.bind a p value s (.declare target)) w) :=
  ⟨declares_bindingStretches ht hp h, bindingStretches_sublist h⟩

/-- `{ x: [a, , ...b], y: a = true, ...c }`. -/
def nestedPattern : Json :=
  let property (key : String) (value : Json) : Json :=
    .ofNode "Property" [("key", .ofName key), ("value", value), ("computed", .bool false)]
  let rest (name : String) : Json := .ofNode "RestElement" [("argument", .ofName name)]
  let default : Json :=
    .ofNode "AssignmentPattern" [("left", .ofName "a"), ("right", .ofNode "Literal" [("value", .bool true)])]
  .ofNode "ObjectPattern" [("properties", .array [
    property "x" (.ofNode "ArrayPattern" [("elements", .array [.ofName "a", .null, rest "b"])]),
    property "y" default, rest "c"])]

/-- One scope, and an object for the pattern. -/
def patternWorld : World where
  scopes := (ScopeGraph.addRoot {} none).2
  arrays := #[#[.bool true, .null, .str "s"]]
  objects := #[.ofList [("z", .null), ("x", .array 0)]]

/-- Whether a run ends with a value. -/
def hasValue : Run (Except Abrupt Value × World) → Bool
  | .ended (.ok _, _) => true
  | _ => false

theorem exists_of_hasValue {run : Run (Except Abrupt Value × World)} (h : hasValue run = true) :
    ∃ value w, run = .ended (.ok value, w) := by
  unfold hasValue at h
  split at h
  next value w => exact ⟨value, w, rfl⟩
  · cases h

theorem binding_declares_nested : ∃ t, Tree.ofJson nestedPattern = .ok t ∧
    Declares 0 (standard.bindingStretches 40
      (.bind ⟨t, .start t.root 0, 0⟩ t.root (.object 0) 0 (.declare 0)) patternWorld) ["a", "b", "a", "c"] := by
  obtain ⟨t, ht, hcheck⟩ := Tree.exists_ofJson (j := nestedPattern)
    (p := fun t => t.patternWithin t.size t.root && (t.bindingNames t.root == ["a", "b", "a", "c"] &&
      hasValue (standard.perform 40
        (.bind ⟨t, .start t.root 0, 0⟩ t.root (.object 0) 0 (.declare 0)) patternWorld)))
    (by decide +kernel)
  simp only [Bool.and_eq_true, beq_iff_eq] at hcheck
  obtain ⟨hpattern, hnames, hvalue⟩ := hcheck
  obtain ⟨value, w', hrun⟩ := exists_of_hasValue hvalue
  obtain ⟨hdeclares, -⟩ := binding_declares (Tree.ofJson_proper ht) (Tree.IsPattern.of_patternWithin hpattern) hrun
  rw [hnames] at hdeclares
  exact ⟨t, ht, hdeclares⟩

end Evaluator

end ScriptCore

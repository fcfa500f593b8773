import ScriptCore.Proofs.Eval.Activations
import ScriptCore.Proofs.Eval.Reaching
import ScriptCore.Proofs.Eval.Reservation
import ScriptCore.Proofs.Hoist.Listed

/-!
# Functions are bound when their list starts

A list of statements binds its function declarations in one go, in their order and before any of the statements
is evaluated: each gets a closure of its own, over the scope of the list, into the cell that the resolution has
declared for it, and a later one of the same name writes over it (`Context.Instantiated`). So whenever a list
comes to evaluate one of its statements, that has happened since the list was entered
(`Evaluator.functions_bound`). A function declaration that is no member of a list, but the branch of an `if` or
the body of a loop, is declared by the resolution all the same, and is never bound
(`Evaluator.branch_function_unbound`).
-/
namespace ScriptCore

/-! ## Binding the functions of a list -/

/-- Since an earlier world, a function declaration has been bound in a scope: where the resolution has declared
its name there is a closure made of it since then, over that scope. -/
def Activation.Binds (a : Activation) (s : ScopeId) (d : NodeId) (name : String) (w w' : World) : Prop :=
  ∃ target id closure, a.links.target? d = some target ∧
    Closure.ofNode a.tree d s none = .ok closure ∧ closure.node = d ∧ closure.scope = s ∧
    w.closures.size ≤ id ∧ w'.closure? id = some closure ∧
    w'.scopes.getOwn? target name = some (.closure id)

namespace Context

open ScopeGraph

variable {c : Context} {s : ScopeId} {d : NodeId} {list rest : List NodeId} {name : String} {w w' v : World}

/-- The world with a closure of a function declaration in the cell of its name. -/
def withFunction (c : Context) (s : ScopeId) (d : NodeId) (name : String) (closure : Closure) (w : World) : World :=
  (w.newClosure closure).2.modifyScopes fun g => g.declare (c.declarationTarget d s) name (.closure w.closures.size)

theorem instantiateFunctions_none (h : c.tree.functionName? d = none) :
    c.instantiateFunctions s (d :: rest) w = c.instantiateFunctions s rest w := by
  rw [Tree.functionName?] at h
  rw [instantiateFunctions]
  split at h
  next htag => rw [if_pos htag, h]
  next htag => rw [if_neg htag]

theorem instantiateFunctions_some (h : c.tree.functionName? d = some name) :
    c.instantiateFunctions s (d :: rest) w =
      match Closure.ofNode c.tree d s none with
      | .ok closure => c.instantiateFunctions s rest (c.withFunction s d name closure w)
      | .error cause => .done (.error (.of cause)) w := by
  rw [Tree.functionName?] at h
  rw [instantiateFunctions]
  split at h
  next htag =>
    rw [if_pos htag, h]
    simp only [createClosure]
    cases Closure.ofNode c.tree d s none with
    | ok closure => rfl
    | error cause => rfl
  · cases h

/-- Binding functions asks for nothing. -/
theorem instantiateFunctions_done (c : Context) (s : ScopeId) (list : List NodeId) (w : World) :
    ∃ outcome w', c.instantiateFunctions s list w = .done outcome w' := by
  induction list generalizing w with
  | nil => exact ⟨_, _, rfl⟩
  | cons d rest ih =>
    cases hname : c.tree.functionName? d with
    | none =>
      rw [instantiateFunctions_none hname]
      exact ih w
    | some name =>
      rw [instantiateFunctions_some hname]
      split
      · exact ih _
      · exact ⟨_, _, rfl⟩

/-- The functions of two lists in a row are bound in a row. -/
theorem instantiateFunctions_append (first rest : List NodeId) (w : World) :
    c.instantiateFunctions s (first ++ rest) w =
      (c.instantiateFunctions s first w).andThen fun _ w => c.instantiateFunctions s rest w := by
  induction first generalizing w with
  | nil => rfl
  | cons d first ih =>
    rw [List.cons_append]
    cases hname : c.tree.functionName? d with
    | none => rw [instantiateFunctions_none hname, instantiateFunctions_none hname, ih]
    | some name =>
      rw [instantiateFunctions_some hname, instantiateFunctions_some hname]
      split
      · exact ih _
      · rfl

/-- Those of all cases are bound as those of one list. -/
theorem instantiateCases_eq (cases : List NodeId) : c.instantiateCases s cases =
    c.instantiateFunctions s (cases.flatMap fun case => c.tree.present case "consequent") := by
  induction cases with
  | nil => rfl
  | cons case rest ih =>
    funext w
    rw [List.flatMap_cons, instantiateFunctions_append, instantiateCases, ih]
    rfl

theorem instantiateFunctions_split {first : List NodeId}
    (h : c.instantiateFunctions s (first ++ rest) w = .done (.ok ()) w') :
    ∃ v, c.instantiateFunctions s first w = .done (.ok ()) v ∧
      c.instantiateFunctions s rest v = .done (.ok ()) w' := by
  rw [instantiateFunctions_append] at h
  obtain ⟨outcome, v, hfirst⟩ := instantiateFunctions_done c s first w
  rw [hfirst] at h
  cases outcome with
  | ok _ => exact ⟨v, hfirst, h⟩
  | error e => cases h

/-- What binding the functions of a list leaves: the scopes, the closures, and all cells but those of the
names of the functions. -/
structure Leaves (c : Context) (list : List NodeId) (w w' : World) : Prop where
  scopes : w'.scopes.size = w.scopes.size
  closures : w.closures.size ≤ w'.closures.size
  kept : ∀ id closure, w.closure? id = some closure → w'.closure? id = some closure
  cells : ∀ target name, (∀ d ∈ list, c.tree.functionName? d ≠ some name) →
    w'.scopes.getOwn? target name = w.scopes.getOwn? target name

theorem leaves_withFunction (hname : c.tree.functionName? d = some name) (s : ScopeId) (closure : Closure)
    (w : World) : c.Leaves [d] w (c.withFunction s d name closure w) where
  scopes := ScopeGraph.size_modify _ _ _
  closures := by simp [withFunction, World.newClosure, World.modifyScopes]
  kept id found hfound := by
    have hlt : id < w.closures.size := (Array.getElem?_eq_some_iff.mp hfound).1
    simpa [withFunction, World.newClosure, World.modifyScopes, World.closure?, Array.getElem?_push,
      Nat.ne_of_lt hlt] using hfound
  cells target other hother := by
    by_contra hchanged
    have heq : other = name := (eq_of_declare (g := w.scopes) hchanged).2
    exact hother d (List.mem_singleton_self d) (heq ▸ hname)

theorem Leaves.trans {first : List NodeId} (h : c.Leaves first w v) (h' : c.Leaves rest v w') :
    c.Leaves (first ++ rest) w w' where
  scopes := h'.scopes.trans h.scopes
  closures := Nat.le_trans h.closures h'.closures
  kept id closure hclosure := h'.kept id closure (h.kept id closure hclosure)
  cells target name hname := by
    rw [h'.cells target name fun d hd => hname d (List.mem_append_right _ hd),
      h.cells target name fun d hd => hname d (List.mem_append_left _ hd)]

theorem leaves_instantiateFunctions (h : c.instantiateFunctions s list w = .done (.ok ()) w') :
    c.Leaves list w w' := by
  induction list generalizing w with
  | nil =>
    cases h
    exact ⟨rfl, Nat.le_refl _, fun _ _ h => h, fun _ _ _ => rfl⟩
  | cons d rest ih =>
    cases hname : c.tree.functionName? d with
    | none =>
      rw [instantiateFunctions_none hname] at h
      obtain ⟨hscopes, hclosures, hkept, hcells⟩ := ih h
      exact ⟨hscopes, hclosures, hkept, fun target name hnone =>
        hcells target name fun e he => hnone e (List.mem_cons_of_mem _ he)⟩
    | some name =>
      rw [instantiateFunctions_some hname] at h
      split at h
      next closure _ => exact (leaves_withFunction hname s closure w).trans (ih h)
      · cases h

/-- The cell of a function that has been bound keeps its closure until the name is bound again. -/
theorem Leaves.binds {w₀ : World} (h : c.Leaves list w w') (hbinds : c.toActivation.Binds s d name w₀ w)
    (hother : ∀ e ∈ list, c.tree.functionName? e ≠ some name) : c.toActivation.Binds s d name w₀ w' := by
  obtain ⟨target, id, closure, htarget, hmade, hnode, hscope, hid, hclosure, hcell⟩ := hbinds
  exact ⟨target, id, closure, htarget, hmade, hnode, hscope, hid, h.kept id closure hclosure,
    (h.cells target name hother).trans hcell⟩

/-- The last function of a list is bound by it. -/
theorem binds_last {first : List NodeId} (h : c.instantiateFunctions s (first ++ [d]) w = .done (.ok ()) w')
    (hname : c.tree.functionName? d = some name) {target : ScopeId} (htarget : c.links.target? d = some target)
    (hlt : target < w.scopes.size) : c.toActivation.Binds s d name w w' := by
  obtain ⟨v, hfirst, hlast⟩ := instantiateFunctions_split h
  have hleaves := leaves_instantiateFunctions hfirst
  rw [instantiateFunctions_some hname] at hlast
  split at hlast
  next closure hclosure =>
    cases hlast
    obtain ⟨hnode, hscope, -⟩ := Closure.ofNode_ok hclosure
    refine ⟨target, v.closures.size, closure, htarget, hclosure, hnode, hscope, hleaves.closures, ?_, ?_⟩
    · simp [withFunction, World.newClosure, World.modifyScopes, World.closure?]
    · have hown : c.declarationTarget d s = target := by rw [declarationTarget, htarget]; rfl
      have hsize : target < v.scopes.size := Nat.lt_of_lt_of_eq hlt hleaves.scopes.symm
      rw [withFunction, World.modifyScopes, hown]
      exact (getOwn?_declare hsize name name _).trans (if_pos rfl)
  · cases hlast

/-- The functions of a list have been bound, from one world to another, in the order of the list. -/
structure Instantiated (c : Context) (s : ScopeId) (list : List NodeId) (w w' : World) : Prop where
  bound : c.instantiateFunctions s list w = .done (.ok ()) w'
  /-- each in its turn -/
  each : ∀ first d rest name, list = first ++ d :: rest → c.tree.functionName? d = some name →
    (c.links.target? d).isSome = true → ∃ v, c.instantiateFunctions s (first ++ [d]) w = .done (.ok ()) v ∧
      c.instantiateFunctions s rest v = .done (.ok ()) w' ∧ c.toActivation.Binds s d name w v
  /-- and in the end the last one of each name -/
  last : ∀ first d rest name, list = first ++ d :: rest → c.tree.functionName? d = some name →
    (c.links.target? d).isSome = true → (∀ e ∈ rest, c.tree.functionName? e ≠ some name) →
      c.toActivation.Binds s d name w w'
  /-- they are bound in one scope -/
  target : ∀ d ∈ list, ∀ e ∈ list, ∀ name other, c.tree.functionName? d = some name →
    c.tree.functionName? e = some other → (c.links.target? d).isSome = true →
      (c.links.target? e).isSome = true → c.links.target? d = c.links.target? e

theorem instantiated {p : NodeId} (h : c.instantiateFunctions s (c.tree.listed p) w = .done (.ok ()) w')
    (ht : c.tree.Proper) (hc : c.links.Directs c.tree w.scopes.size) :
    c.Instantiated s (c.tree.listed p) w w' := by
  have heach (first : List NodeId) (d : NodeId) (rest : List NodeId) (name : String)
      (hlist : c.tree.listed p = first ++ d :: rest) (hname : c.tree.functionName? d = some name)
      (hsome : (c.links.target? d).isSome = true) :
      ∃ v, c.instantiateFunctions s (first ++ [d]) w = .done (.ok ()) v ∧
        c.instantiateFunctions s rest v = .done (.ok ()) w' ∧ c.toActivation.Binds s d name w v := by
    obtain ⟨target, htarget⟩ := Option.isSome_iff_exists.mp hsome
    have hsplit : c.tree.listed p = (first ++ [d]) ++ rest := by rw [hlist, List.append_assoc]; rfl
    rw [hsplit] at h
    obtain ⟨v, hfirst, hrest⟩ := instantiateFunctions_split h
    exact ⟨v, hfirst, hrest,
      binds_last hfirst hname htarget (hc.lt d target (Tree.tag_of_functionName? hname) htarget)⟩
  refine ⟨h, heach, fun first d rest name hlist hname hsome hother => ?_,
    fun d hd e he name other hname hother hsome hsome' => ?_⟩
  · obtain ⟨v, -, hrest, hbinds⟩ := heach first d rest name hlist hname hsome
    exact (leaves_instantiateFunctions hrest).binds hbinds hother
  · obtain ⟨target, htarget⟩ := Option.isSome_iff_exists.mp hsome
    obtain ⟨target', htarget'⟩ := Option.isSome_iff_exists.mp hsome'
    rw [htarget, htarget', hc.listed ht hd he (Tree.tag_of_functionName? hname)
      (Tree.tag_of_functionName? hother) htarget htarget']

end Context

/-! ## On the way to a statement -/

namespace Eval

variable {α β : Type} {ev : Evaluator} {errands : List Errand} {task asked : Task} {w w' : World}

/-- What is done with the value of a task is reached after the task, which was performed. -/
theorem reaches_ask_bind {f : Value → Eval β} (h : ((ask asked >>= f) w).Reaches ev errands task w') :
    task = asked ∨ ∃ used value w₁ rest, errands = ⟨asked, w, .ok value, w₁⟩ :: rest ∧
      ev.perform used asked w = .ended (.ok value, w₁) ∧ (f value w₁).Reaches ev rest task w' := by
  cases h with
  | here => exact Or.inl rfl
  | @later _ _ _ w₁ _ _ used given rest hperform hrest =>
    cases given with
    | ok value => exact Or.inr ⟨used, value, w₁, rest, rfl, hperform, hrest⟩
    | error e => cases hrest

/-- What is done with the outcome of a task is reached after the task as well. -/
theorem reaches_ask_catching {f : Except Abrupt Value → Eval β}
    (h : (((ask asked).catching >>= f) w).Reaches ev errands task w') :
    task = asked ∨ ∃ used outcome w₁ rest, errands = ⟨asked, w, outcome, w₁⟩ :: rest ∧
      ev.perform used asked w = .ended (outcome, w₁) ∧ (f outcome w₁).Reaches ev rest task w' := by
  cases h with
  | here => exact Or.inl rfl
  | @later _ _ _ w₁ _ _ used given rest hperform hrest =>
    exact Or.inr ⟨used, given, w₁, rest, rfl, hperform, hrest⟩

end Eval

namespace Context

variable {β : Type} {ev : Evaluator} {c : Context} {errands : List Errand} {task : Task} {w w' : World} {n : NodeId}
  {s : ScopeId}

theorem reaches_require {key : String} {f : NodeId → Eval β}
    (h : ((c.require n key >>= f) w).Reaches ev errands task w') :
    ∃ child, c.tree.child? n key = some child ∧ (f child w).Reaches ev errands task w' := by
  rw [require] at h
  split at h
  next child hchild => exact ⟨child, hchild, h⟩
  · cases h

theorem reaches_bind {value : Value} {binding : Binding} {f : Unit → Eval β}
    (h : ((c.bind n value s binding >>= f) w).Reaches ev errands task w') :
    task = .bind c.toActivation n value s binding ∨ ∃ used given w₁ rest,
      errands = ⟨.bind c.toActivation n value s binding, w, .ok given, w₁⟩ :: rest ∧
        ev.perform used (.bind c.toActivation n value s binding) w = .ended (.ok given, w₁) ∧
          (f () w₁).Reaches ev rest task w' := by
  rw [bind, bind_assoc] at h
  exact Eval.reaches_ask_bind h

/-- The scope of a block is had by effects. -/
theorem reaches_blockScope {f : ScopeId → Eval β} (h : ((c.blockScope n s >>= f) w).Reaches ev errands task w') :
    ∃ own w₁, Relation.ReflTransGen (World.Effect ev) w w₁ ∧ (f own w₁).Reaches ev errands task w' := by
  obtain ⟨own, -, heq⟩ | ⟨-, heq⟩ := Site.openBlock_cases c n s f w
  · rw [heq] at h
    exact ⟨own, w, .refl, h⟩
  · rw [heq] at h
    exact ⟨_, _, .single (.scopes (.opened s)), h⟩

/-! ## The statements of a list -/

/-- Statements in a row ask for their values in their scope. -/
theorem reaches_evalEach {last : Value} {list : List NodeId}
    (h : (c.evalEach s last list w).Reaches ev errands task w') : ∃ y, task = .eval c.toActivation y s := by
  induction list generalizing last errands w with
  | nil => cases h
  | cons y rest ih =>
    obtain heq | ⟨-, value, w₁, others, -, -, hrest⟩ := Eval.reaches_ask_bind h
    · exact ⟨y, heq⟩
    · exact ih hrest

theorem startsIn_evalEach (c : Context) (s : ScopeId) (last : Value) (list : List NodeId) (w : World) :
    (c.evalEach s last list w).StartsIn w := by
  cases list <;> exact rfl

theorem reaches_runCases {list : List NodeId} (h : (c.runCases s list w).Reaches ev errands task w') :
    ∃ y, task = .eval c.toActivation y s := by
  induction list generalizing errands w with
  | nil => cases h
  | cons y rest ih =>
    obtain heq | ⟨-, outcome, w₁, others, -, -, hrest⟩ := Eval.reaches_ask_catching h
    · exact ⟨y, heq⟩
    · split at hrest
      · exact ih hrest
      · cases hrest
      · cases hrest

theorem startsIn_runCases (c : Context) (s : ScopeId) (list : List NodeId) (w : World) :
    (c.runCases s list w).StartsIn w := by
  cases list <;> exact rfl

/-- Tests of cases are evaluated in the scope of the switch. -/
theorem reaches_selectCase {v : Value} {cases : List (Option NodeId)}
    (h : (c.selectCase v s cases w).Reaches ev errands task w') : ∃ y, task = .eval c.toActivation y s := by
  induction cases generalizing errands w with
  | nil => cases h
  | cons case rest ih =>
    rw [selectCase] at h
    generalize (case.bind fun case => c.tree.child? case "test") = test at h
    cases test with
    | none => exact ih h
    | some test =>
      obtain heq | ⟨-, value, w₁, others, -, -, hrest⟩ := Eval.reaches_ask_bind h
      · exact ⟨test, heq⟩
      · split at hrest
        · cases hrest
        · exact ih hrest

theorem startsIn_selectCase (c : Context) (s : ScopeId) (v : Value) (cases : List (Option NodeId)) (w : World) :
    (c.selectCase v s cases w).StartsIn w := by
  induction cases with
  | nil => exact rfl
  | cons case rest ih =>
    rw [selectCase]
    generalize (case.bind fun case => c.tree.child? case "test") = test
    cases test with
    | none => exact ih
    | some test => exact rfl

/-! ## What binds functions, and goes on -/

/-- The functions of a list have been bound, in a scope and after the given errands, on the way to a task. -/
structure BindsBefore (ev : Evaluator) (c : Context) (list : List NodeId) (w₀ : World) (before after : List Errand)
    (s : ScopeId) (w₁ w₂ w' : World) : Prop where
  earlier : Relation.ReflTransGen (World.Effect ev) w₀ w₁
  bound : c.instantiateFunctions s list w₁ = .done (.ok ()) w₂
  /-- the computation goes on from where they are bound -/
  next : (after.map Errand.start ++ [w']).head? = some w₂
  /-- what has been asked for before is none of the list -/
  apart : ∀ errand ∈ before, ∀ y ∈ list, ∀ u, errand.task ≠ .eval c.toActivation y u

theorem reaches_instantiated {list : List NodeId} {f : Unit → Eval β}
    (h : ((c.instantiateFunctions s list >>= f) w).Reaches ev errands task w')
    (hf : ∀ w, (f () w).StartsIn w) : ∃ w₂, c.BindsBefore ev list w [] errands s w w₂ w' ∧
      (f () w₂).Reaches ev errands task w' := by
  obtain ⟨outcome, w₂, hbound⟩ := instantiateFunctions_done c s list w
  have hbind : (c.instantiateFunctions s list >>= f) w =
      (c.instantiateFunctions s list w).andThen fun a w => f a w := rfl
  rw [hbind, hbound] at h
  cases outcome with
  | ok _ =>
    refine ⟨w₂, ⟨.refl, hbound, ?_, by simp⟩, h⟩
    exact Computation.Reaches.first h (hf w₂)
  | error e => cases h

/-- Errands that are none of the list may come before. -/
theorem BindsBefore.after {list : List NodeId} {w₀ w₁ w₂ : World} {before after : List Errand}
    (h : c.BindsBefore ev list w [] after s w₁ w₂ w') (heffects : Relation.ReflTransGen (World.Effect ev) w₀ w)
    (hbefore : ∀ errand ∈ before, ∀ y ∈ list, ∀ u, errand.task ≠ .eval c.toActivation y u) :
    c.BindsBefore ev list w₀ before after s w₁ w₂ w' :=
  ⟨heffects.trans h.earlier, h.bound, h.next, hbefore⟩

/-- A list has bound its functions when it comes to evaluate anything. -/
theorem reaches_evalStatements {key : String} {a : Activation} {x : NodeId} {u : ScopeId}
    (h : (c.evalStatements n key s w).Reaches ev errands (.eval a x u) w') :
    ∃ w₂, c.BindsBefore ev (c.tree.present n key) w [] errands u w w₂ w' := by
  obtain ⟨w₂, hbinds, heach⟩ := reaches_instantiated h fun w => startsIn_evalEach c s .undefined _ w
  obtain ⟨y, heq⟩ := reaches_evalEach heach
  cases heq
  exact ⟨w₂, hbinds⟩

theorem reaches_blockStatement {a : Activation} {x : NodeId} {u : ScopeId}
    (h : (c.blockStatement n s w).Reaches ev errands (.eval a x u) w') :
    ∃ w₁ w₂, c.BindsBefore ev (c.tree.present n "body") w [] errands u w₁ w₂ w' := by
  obtain ⟨own, w₁, heffects, hlist⟩ := reaches_blockScope h
  obtain ⟨w₂, hbinds⟩ := reaches_evalStatements hlist
  exact ⟨w₁, w₂, hbinds.after heffects (by simp)⟩

variable (hrules : ev.rules = RuleTable.default) (hresolver : ev.resolver.rules = Hoist.defaultRules)
  (ht : c.tree.Proper) {x : NodeId} {u : ScopeId}

include hrules hresolver ht in
/-- A switch has bound the functions of all its cases when it comes to evaluate a statement of one. -/
theorem reaches_switchStatement (htag : c.tree.tag n = "SwitchStatement") (hx : x ∈ c.tree.listed n)
    (h : (c.switchStatement n s w).Reaches ev errands (.eval c.toActivation x u) w') :
    ∃ before after w₁ w₂, errands = before ++ after ∧
      c.BindsBefore ev (c.tree.listed n) w before after u w₁ w₂ w' := by
  have hlist : c.tree.listed n =
      (c.tree.present n "cases").flatMap fun case => c.tree.present case "consequent" := by
    simp only [Tree.listed, htag]
  obtain ⟨discriminant, hdiscriminant, h⟩ := reaches_require h
  have hapart {y : NodeId} (hy : y ∈ c.tree.listed n) (v v' : ScopeId) :
      Task.eval c.toActivation discriminant v ≠ .eval c.toActivation y v' := by
    rintro ⟨⟩
    exact ht.not_held_of_listed (Or.inl htag) hy (Tree.held_of_child? hdiscriminant)
  obtain heq | ⟨used, value, w₁, rest, rfl, hperform, h⟩ := Eval.reaches_ask_bind h
  · exact absurd heq.symm (hapart hx s u)
  · obtain ⟨own, w₂, heffects, h⟩ := reaches_blockScope h
    rw [instantiateCases_eq, ← hlist] at h
    obtain ⟨w₃, hbinds, h⟩ := reaches_instantiated h fun w =>
      (startsIn_selectCase c own value _ w).andThen fun _ => startsIn_runCases c own _ w
    obtain rfl : u = own := by
      obtain hselect | ⟨_, _, _, _, _, _, hrun⟩ := h.of_andThen
      · obtain ⟨y, heq⟩ := reaches_selectCase hselect
        cases heq
        rfl
      · obtain ⟨y, heq⟩ := reaches_runCases hrun
        cases heq
        rfl
    have hstart := (Evaluator.effects_of_perform hrules hresolver hperform).trans heffects
    refine ⟨[⟨.eval c.toActivation discriminant s, w, .ok value, w₁⟩], rest, w₂, w₃, rfl, ?_⟩
    refine hbinds.after hstart fun errand hmem y hy v => ?_
    obtain rfl := List.mem_singleton.mp hmem
    exact hapart hy s v

include hrules hresolver in
/-- A clause binds its parameter, if it has one, and then the functions of its body. -/
theorem reaches_catchClause {clause body : NodeId} {thrown : Value}
    (hbody : c.tree.child? clause "body" = some body)
    (h : (c.catchClause clause thrown s w).Reaches ev errands (.eval c.toActivation x u) w') :
    ∃ before after w₁ w₂, errands = before ++ after ∧
      c.BindsBefore ev (c.tree.present body "body") w before after u w₁ w₂ w' ∧
      ∀ errand ∈ before, ∃ a p value v binding, errand.task = .bind a p value v binding := by
  obtain ⟨child, hchild, h⟩ := reaches_require h
  obtain rfl : child = body := Option.some.inj (hchild.symm.trans hbody)
  obtain ⟨own, w₁, heffects, h⟩ := reaches_blockScope h
  generalize c.tree.child? clause "param" = param? at h
  cases param? with
  | none =>
    obtain ⟨w₂, hbinds⟩ := reaches_evalStatements h
    exact ⟨[], errands, w₁, w₂, rfl, hbinds.after heffects (by simp), by simp⟩
  | some param =>
    obtain heq | ⟨used, given, w₂, rest, rfl, hperform, h⟩ := reaches_bind h
    · cases heq
    · obtain ⟨w₃, hbinds⟩ := reaches_evalStatements h
      have hbound := heffects.trans (Evaluator.effects_of_perform hrules hresolver hperform)
      have hbefore : ∀ errand ∈
          [Errand.mk (.bind c.toActivation param thrown own (.declare own)) w₁ (.ok given) w₂],
            ∃ a p value v binding, errand.task = .bind a p value v binding := by
        intro errand hmem
        obtain rfl := List.mem_singleton.mp hmem
        exact ⟨_, _, _, _, _, rfl⟩
      refine ⟨_, rest, w₂, w₃, rfl, hbinds.after hbound fun errand hmem y _ v heq => ?_, hbefore⟩
      obtain ⟨a, p, value, v', binding, htask⟩ := hbefore errand hmem
      cases htask.symm.trans heq

/-- After the block of a `try` statement, only its handler asks for anything. -/
theorem reaches_handled {given : Except Abrupt Value} {handler? : Option NodeId}
    (h : ((match given, handler? with
      | .error (.threw thrown), some handler => c.catchClause handler thrown s
      | .ok value, _ => pure value
      | .error other, _ => Eval.abrupt other : Eval Value) w).Reaches ev errands task w') :
    ∃ handler thrown, handler? = some handler ∧ (c.catchClause handler thrown s w).Reaches ev errands task w' := by
  split at h
  next thrown handler => exact ⟨handler, thrown, rfl, h⟩
  · cases h
  · cases h

include hrules hresolver ht in
/-- A `try` statement has bound the functions of its handler's body when it comes to evaluate a statement of
it. -/
theorem reaches_tryStatement (htag : c.tree.tag n = "TryStatement") (hx : x ∈ c.tree.listed n)
    (h : (c.tryStatement n s w).Reaches ev errands (.eval c.toActivation x u) w') :
    ∃ before after w₁ w₂, errands = before ++ after ∧
      c.BindsBefore ev (c.tree.listed n) w before after u w₁ w₂ w' := by
  have hapart {child y : NodeId} {key : String} (hchild : c.tree.child? n key = some child)
      (hy : y ∈ c.tree.listed n) (v v' : ScopeId) :
      Task.eval c.toActivation child v ≠ .eval c.toActivation y v' := by
    rintro ⟨⟩
    exact ht.not_held_of_listed (Or.inr htag) hy (Tree.held_of_child? hchild)
  obtain ⟨body, hbody⟩ : ∃ body, c.tree.handlerBody? n = some body := by
    simp only [Tree.listed, htag] at hx
    obtain ⟨body, hbody, -⟩ := List.mem_flatMap.mp hx
    exact ⟨body, Option.mem_toList.mp hbody⟩
  have hlist : c.tree.listed n = c.tree.present body "body" := by simp [Tree.listed, htag, hbody]
  obtain ⟨block, hblock, htry⟩ := reaches_require h
  obtain hguarded | ⟨_, _, outcome, _, _, _, hfinally⟩ := htry.of_andThen
  · obtain heq | ⟨used, given, w₁, rest, rfl, hperform, hhandled⟩ :=
      Eval.reaches_ask_catching hguarded.of_caught
    · exact absurd heq.symm (hapart hblock hx s u)
    · obtain ⟨handler, thrown, hhandler, hclause⟩ := reaches_handled hhandled
      have hinner : c.tree.child? handler "body" = some body := by
        rw [Tree.handlerBody?, hhandler] at hbody
        exact hbody
      obtain ⟨before, after, w₂, w₃, rfl, hbinds, hbefore⟩ := reaches_catchClause hrules hresolver hinner hclause
      rw [hlist] at hapart ⊢
      refine ⟨⟨.eval c.toActivation block s, w, given, w₁⟩ :: before, after, w₂, w₃, rfl, ?_⟩
      refine ⟨(Evaluator.effects_of_perform hrules hresolver hperform).trans hbinds.earlier, hbinds.bound,
        hbinds.next, List.forall_mem_cons.mpr ⟨fun y hy v => hapart hblock hy s v, hbinds.apart⟩⟩
  · generalize hfinalizer : c.tree.child? n "finalizer" = finalizer? at hfinally
    cases finalizer? with
    | none => cases outcome <;> cases hfinally
    | some finalizer =>
      obtain heq | ⟨-, _, _, _, -, -, hresume⟩ := Eval.reaches_ask_bind hfinally
      · exact absurd heq.symm (hapart hfinalizer hx s u)
      · cases outcome <;> cases hresume

end Context

/-! ## Whoever runs a list -/

namespace Evaluator

variable {ev : Evaluator} {a : Activation} {p x : NodeId} {s₀ s : ScopeId} {w₀ w' : World} {errands : List Errand}

/-- An evaluation comes to ask for a task by the rule for the node. -/
theorem reaches_rule {task : Task} {rule : Rule} (hrule : ev.rules.get? (a.tree.tag p) = some rule)
    (h : (ev.carryOut (.eval a p s₀) w₀).Reaches ev errands task w') :
    (rule.meaning ev.host (ev.context a) p s₀ w₀).Reaches ev errands task w' := by
  obtain hnode | ⟨_, _, _, _, _, _, hdone⟩ := Computation.Reaches.of_andThen h
  · rw [evalNode, hrule] at hnode
    exact hnode.of_raisedAt
  · cases hdone

/-- Whatever runs a list, its functions are bound before it comes to evaluate any statement of it. -/
theorem reaches_listed (hrules : ev.rules = RuleTable.default) (hresolver : ev.resolver.rules = Hoist.defaultRules)
    (ht : a.tree.Proper) (hx : x ∈ a.tree.listed p)
    (h : (ev.carryOut (.eval a p s₀) w₀).Reaches ev errands (.eval a x s) w') :
    ∃ before after w₁ w₂, errands = before ++ after ∧
      (ev.context a).BindsBefore ev (a.tree.listed p) w₀ before after s w₁ w₂ w' := by
  have hreach {tag : String} {rule : Rule} (htag : a.tree.tag p = tag)
      (hrule : RuleTable.default.get? tag = some rule) :
      (rule.meaning ev.host (ev.context a) p s₀ w₀).Reaches ev errands (.eval a x s) w' :=
    reaches_rule (by rw [hrules, htag, hrule]) h
  obtain htag | htag | htag | htag := Tree.tag_of_listed hx
  · have hrule : RuleTable.default.get? "Program" = some .program :=
      RuleTable.get?_default ("Program", _) (by simp)
    obtain ⟨w₂, hbinds⟩ := Context.reaches_evalStatements (hreach htag hrule)
    have hlist : a.tree.listed p = a.tree.present p "body" := by simp only [Tree.listed, htag]
    exact ⟨[], errands, w₀, w₂, rfl, hlist ▸ hbinds⟩
  · have hrule : RuleTable.default.get? "BlockStatement" = some .blockStatement :=
      RuleTable.get?_default ("BlockStatement", _) (by simp)
    obtain ⟨w₁, w₂, hbinds⟩ := Context.reaches_blockStatement (hreach htag hrule)
    have hlist : a.tree.listed p = a.tree.present p "body" := by simp only [Tree.listed, htag]
    exact ⟨[], errands, w₁, w₂, rfl, hlist ▸ hbinds⟩
  · have hrule : RuleTable.default.get? "SwitchStatement" = some .switchStatement :=
      RuleTable.get?_default ("SwitchStatement", _) (by simp)
    exact Context.reaches_switchStatement hrules hresolver ht htag hx (hreach htag hrule)
  · have hrule : RuleTable.default.get? "TryStatement" = some .tryStatement :=
      RuleTable.get?_default ("TryStatement", _) (by simp)
    exact Context.reaches_tryStatement hrules hresolver ht htag hx (hreach htag hrule)

/-- **The functions of a list are bound before its first statement.** In the run of a program, and in every call
in it, whenever a list of statements comes to evaluate one of them, the functions of the list have been bound
since it was entered, before it came to any of its statements: each one in its turn, with a new closure over
the scope that the statements are evaluated in, and of those that have one name the last one is bound in the
end. -/
theorem functions_bound (hrules : ev.rules = RuleTable.default) (hresolver : ev.resolver.rules = Hoist.defaultRules)
    (hscopes : ev.host.LeavesScopes) (hclosures : ev.host.MakesNoClosures) (j : Json) (t : Tree)
    (ht : Tree.ofJson j = .ok t) (scope : ScopeId) (w w₁ : World) (hscope : scope < w.scopes.size) (hw : w.Whole)
    (r : Resolved) (hresolve : ev.resolve t scope w = (.ok r, w₁)) (steps : Nat) (a : Activation) (p : NodeId)
    (s₀ : ScopeId) (w₀ : World)
    (hmem : (.eval a p s₀, w₀) ∈ ev.performed steps (.eval ⟨r.tree, r.links, 0⟩ r.links.root r.links.rootScope) w₁)
    (x : NodeId) (hx : x ∈ a.tree.listed p) (errands : List Errand) (s : ScopeId) (w' : World)
    (hreaches : (ev.carryOut (.eval a p s₀) w₀).Reaches ev errands (.eval a x s) w') :
    ∃ before after w₂ w₃, errands = before ++ after ∧
      (ev.context a).BindsBefore ev (a.tree.listed p) w₀ before after s w₂ w₃ w' ∧
      (ev.context a).Instantiated s (a.tree.listed p) w₂ w₃ ∧
      Relation.ReflTransGen (World.Effect ev) w₃ w' := by
  have hdirected : a.Directed w₀ := directed_performed hrules hresolver hscopes hclosures
    (Tree.ofJson_proper ht) hscope hw hresolve steps _ hmem
  obtain ⟨before, after, w₂, w₃, rfl, hbinds⟩ := reaches_listed hrules hresolver hdirected.tree hx hreaches
  have hlinks : a.links.Directs a.tree w₂.scopes.size :=
    hdirected.links.mono (World.prolongs_of_effects hscopes hbinds.earlier).size_le
  have hgoes := (effects_keptBy hrules hresolver).goes (.eval a p s₀) w₀ trivial
  exact ⟨before, after, w₂, w₃, rfl, hbinds, Context.instantiated hbinds.bound hdirected.tree hlinks,
    hgoes.reaches_next hrules hresolver hreaches hbinds.next⟩

/-- `f(); function f() {} function f(a) {}` -/
def calledBefore : Json :=
  let function (params : List Json) : Json := .ofNode "FunctionDeclaration"
    [("id", .ofName "f"), ("params", .array params), ("body", .ofNode "BlockStatement" [("body", .array [])])]
  let call := Json.ofNode "CallExpression" [("callee", .ofName "f"), ("arguments", .array [])]
  .ofNode "Program" [("body", .array
    [.ofNode "ExpressionStatement" [("expression", call)], function [], function [.ofName "a"]])]

/-- Whether the evaluation of a program first asks for the value of a node. -/
def asksFirst (ev : Evaluator) (n : NodeId) (r : Resolved) (w : World) : Bool :=
  match ev.carryOut (.eval ⟨r.tree, r.links, 0⟩ r.links.root r.links.rootScope) w with
  | .ask (.eval _ x _) _ _ => x == n
  | _ => false

/-- What is asked for first is asked for in the same activation. -/
theorem reaches_of_asksFirst (hrules : ev.rules = RuleTable.default)
    (hresolver : ev.resolver.rules = Hoist.defaultRules) {n : NodeId} {r : Resolved} {w : World}
    (h : ev.asksFirst n r w = true) : ∃ s w', (ev.carryOut (.eval ⟨r.tree, r.links, 0⟩ r.links.root
      r.links.rootScope) w).Reaches ev [] (.eval ⟨r.tree, r.links, 0⟩ n s) w' := by
  let a : Activation := ⟨r.tree, r.links, 0⟩
  have hgoes := (effects_keptBy hrules hresolver).goes (.eval a r.links.root r.links.rootScope) w trivial
  rw [asksFirst] at h
  split at h
  next b x s w' resume hask =>
    rw [hask] at hgoes ⊢
    obtain ⟨-, hasked, -⟩ := hgoes
    obtain rfl : b = a := by
      obtain hsame | hcall := hasked a rfl
      · exact Option.some.inj hsame
      · cases hcall
    obtain rfl : x = n := eq_of_beq h
    exact ⟨s, w', .here _ _ _⟩
  · cases h

/-- Before the call, the second declaration of `f` is bound. -/
theorem functions_bound_before_call : ∃ t r w₁ s w', Tree.ofJson calledBefore = .ok t ∧
    standard.resolve t 0 (World.newRootScope {}).2 = (.ok r, w₁) ∧
    (standard.carryOut (.eval ⟨r.tree, r.links, 0⟩ r.links.root r.links.rootScope) w₁).Reaches standard []
      (.eval ⟨r.tree, r.links, 0⟩ 2 s) w' ∧
    ∃ w₂ w₃, Relation.ReflTransGen (World.Effect standard) w₁ w₂ ∧
      Activation.Binds ⟨r.tree, r.links, 0⟩ s 9 "f" w₂ w₃ ∧
      Relation.ReflTransGen (World.Effect standard) w₃ w' := by
  obtain ⟨t, ht, hfound⟩ := Tree.exists_ofJson (j := calledBefore)
    (p := fun t => standard.resolvesTo t fun r w => standard.asksFirst 2 r w &&
      r.tree.listed r.links.root == [2, 5, 9] && r.tree.functionName? 9 == some "f" &&
      (r.links.target? 9).isSome)
    (by decide +kernel)
  obtain ⟨r, w₁, hresolve, hchecks⟩ := exists_of_resolvesTo hfound
  simp only [Bool.and_eq_true, beq_iff_eq] at hchecks
  obtain ⟨⟨⟨hasks, hlist⟩, hname⟩, htarget⟩ := hchecks
  obtain ⟨s, w', hreaches⟩ := reaches_of_asksFirst standard_rules standard_resolver hasks
  have hwhole : (World.newRootScope {}).2.Whole := by
    intro id closure hclosure
    simp [World.newRootScope, World.closure?] at hclosure
  have hlisted : 2 ∈ r.tree.listed r.links.root := by simp [hlist]
  obtain ⟨before, after, w₂, w₃, -, hbinds, hinstantiated, heffects⟩ := functions_bound standard_rules
    standard_resolver Host.standard_leavesScopes Host.standard_makesNoClosures calledBefore t ht 0
    (World.newRootScope {}).2 w₁ (by decide) hwhole r hresolve 0 ⟨r.tree, r.links, 0⟩ r.links.root
    r.links.rootScope w₁ List.mem_cons_self 2 hlisted [] s w' hreaches
  have hlast := hinstantiated.last [2, 5] 9 [] "f" hlist hname htarget (by simp)
  exact ⟨t, r, w₁, s, w', ht, hresolve, hreaches, w₂, w₃, hbinds.earlier, hlast, heffects⟩

/-! ## Outside of lists -/

/-- `if (true) function f() {}` -/
def branchFunction : Json :=
  let function := Json.ofNode "FunctionDeclaration"
    [("id", .ofName "f"), ("params", .array []), ("body", .ofNode "BlockStatement" [("body", .array [])])]
  .ofNode "Program" [("body", .array [.ofNode "IfStatement"
    [("test", .ofNode "Literal" [("value", .bool true)]), ("consequent", function), ("alternate", .null)]])]

/-- Whether a task evaluates a declaration of `f` for the cell of the root scope that is in a world without any
closure, and in which that cell is `undefined`. -/
def isUnbound (carried : Task × World) : Bool :=
  match carried.1 with
  | .eval a d _ => a.tree.functionName? d == some "f" && a.links.target? d == some 0 &&
      carried.2.closures.isEmpty && ((carried.2.scopes.getOwn? 0 "f").map Value.isUndefined == some true)
  | _ => false

/-- **A function declaration in no list is not bound**: the branch of an `if` is declared by the resolution, and
evaluated, and yet no closure has been made by then. -/
theorem branch_function_unbound : ∃ t r w₁ a d s w', Tree.ofJson branchFunction = .ok t ∧
    standard.resolve t 0 (World.newRootScope {}).2 = (.ok r, w₁) ∧
    (.eval a d s, w') ∈ standard.performed 10 (.eval ⟨r.tree, r.links, 0⟩ r.links.root r.links.rootScope) w₁ ∧
    a.tree.functionName? d = some "f" ∧ a.links.target? d = some 0 ∧ w'.closures = #[] ∧
    w'.scopes.getOwn? 0 "f" = some .undefined := by
  obtain ⟨t, ht, hfound⟩ := Tree.exists_ofJson (j := branchFunction)
    (p := fun t => standard.resolvesTo t fun r w => (standard.performed 10
      (.eval ⟨r.tree, r.links, 0⟩ r.links.root r.links.rootScope) w).any isUnbound)
    (by decide +kernel)
  obtain ⟨r, w₁, hresolve, hany⟩ := exists_of_resolvesTo hfound
  obtain ⟨⟨task, w'⟩, hmem, hunbound⟩ := List.any_eq_true.mp hany
  cases task with
  | eval a d s =>
    simp only [isUnbound, Bool.and_eq_true, beq_iff_eq, Array.isEmpty_iff] at hunbound
    obtain ⟨⟨⟨hname, htarget⟩, hempty⟩, hcell⟩ := hunbound
    obtain ⟨value, hvalue, hundefined⟩ := Option.map_eq_some_iff.mp hcell
    obtain rfl : value = .undefined := by
      cases value <;> first | rfl | cases hundefined
    exact ⟨t, r, w₁, a, d, s, w', ht, hresolve, hmem, hname, htarget, hempty, hvalue⟩
  | _ => cases hunbound

end Evaluator

end ScriptCore

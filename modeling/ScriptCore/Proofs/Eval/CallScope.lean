import ScriptCore.Proofs.Eval.DynamicContext
import ScriptCore.Proofs.Eval.Effect
import ScriptCore.Proofs.Eval.Equivalence
import ScriptCore.Proofs.Hoist.Reserved
import ScriptCore.Proofs.Value.Storing

/-!
# The names of a call

Four sources name cells of the scope that a call makes, one after the other: the declarations of the body,
which find it empty (`ScopeGraph.Blank`), the closure's own name, which gives way to what is there, `this` and
`arguments`, and at last the parameters (`Evaluator.Binds`), which both write over what is there. So a name
that several of them share is settled by one precedence (`Evaluator.call_sets_up`).
-/
namespace ScriptCore

namespace ScopeGraph

variable {g : ScopeGraph} {s p : ScopeId} {name : String}

/-- A declaration shows under its name. -/
theorem getOwn?_declare (hs : s < g.size) (name other : String) (value : Value) :
    (g.declare s name value).getOwn? s other = if name = other then some value else g.getOwn? s other := by
  rw [getOwn?, declare, get_modify, if_pos ⟨rfl, hs⟩, Dict.get?_insert]
  rfl

theorem mem_ownNames_iff : name ∈ g.ownNames s ↔ (g.getOwn? s name).isSome = true := hasOwn_iff.symm

/-- A scope that there is lies beneath another one. -/
structure Hangs (g : ScopeGraph) (s p : ScopeId) : Prop where
  lt : s < g.size
  parent : g.parent? s = some p

theorem Hangs.modify (h : g.Hangs s p) (t : ScopeId) {f : Scope → Scope}
    (hf : ∀ scope, (f scope).parent = scope.parent) : (g.modify t f).Hangs s p where
  lt := Nat.lt_of_lt_of_eq h.lt (size_modify _ _ _).symm
  parent := by
    rw [parent?, get_modify]
    split
    · exact (hf _).trans h.parent
    · exact h.parent

/-- Its cells hold nothing yet. -/
structure Blank (g : ScopeGraph) (s p : ScopeId) : Prop extends g.Hangs s p where
  cells : ∀ name value, g.getOwn? s name = some value → value = .undefined

/-- A new scope beneath another is nobody's and empty. -/
theorem get_addChild_self (g : ScopeGraph) (p : ScopeId) : ((g.addChild p).2.get g.size).owner = none ∧
    ((g.addChild p).2.get g.size).parent = some p ∧ ((g.addChild p).2.get g.size).cells = ∅ := by
  rw [addChild]
  simp only [get_modify, get_add]
  split <;> simp

theorem blank_addChild (g : ScopeGraph) (p : ScopeId) : (g.addChild p).2.Blank g.size p := by
  obtain ⟨-, hparent, hcells⟩ := get_addChild_self g p
  refine ⟨⟨by rw [size_addChild]; exact Nat.lt_succ_self _, hparent⟩, fun name value hvalue => ?_⟩
  rw [getOwn?, hcells, Dict.get?_empty] at hvalue
  cases hvalue

/-- What keeps a parent and cells keeps a scope blank. -/
theorem Blank.of_same {g' : ScopeGraph} (h : g.Blank s p) (hsize : g.size ≤ g'.size)
    (hparent : (g'.get s).parent = (g.get s).parent) (hcells : (g'.get s).cells = (g.get s).cells) :
    g'.Blank s p where
  lt := Nat.lt_of_lt_of_le h.lt hsize
  parent := hparent.trans h.parent
  cells name value hvalue := h.cells name value (by rwa [getOwn?, hcells] at hvalue)

theorem Blank.declareNew (h : g.Blank s p) (target : ScopeId) (names : List String) :
    (g.declareNew target names).Blank s p := by
  induction names generalizing g with
  | nil => exact h
  | cons name rest ih =>
    rw [ScopeGraph.declareNew, List.foldl_cons, ← ScopeGraph.declareNew]
    split
    · exact ih h
    · refine ih ?_
      refine ⟨h.toHangs.modify target fun _ => rfl, fun other value hvalue => ?_⟩
      by_cases htarget : target = s
      · subst htarget
        rw [getOwn?_declare h.lt] at hvalue
        split at hvalue
        · exact (Option.some.inj hvalue).symm
        · exact h.cells other value hvalue
      · rw [getOwn?, declare, get_modify, if_neg fun heq => htarget heq.1] at hvalue
        exact h.cells other value hvalue

theorem eq_of_declare {own a : ScopeId} {other : String} {value : Value}
    (h : (g.declare own name value).getOwn? a other ≠ g.getOwn? a other) : a = own ∧ other = name := by
  rw [getOwn?, declare, get_modify] at h
  split at h
  next heq =>
    rw [Dict.get?_insert] at h
    split at h
    next hname => exact ⟨heq.1.symm, hname.symm⟩
    · exact absurd rfl h
  · exact absurd rfl h

/-- What keeps the cells of a scope keeps those of all. -/
theorem getOwn?_modify (g : ScopeGraph) (t a : ScopeId) {f : Scope → Scope}
    (hf : ∀ scope, (f scope).cells = scope.cells) (name : String) :
    (g.modify t f).getOwn? a name = g.getOwn? a name := by
  rw [getOwn?, get_modify]
  split
  · rw [hf]
    rfl
  · rfl

theorem getOwn?_setOwner (g : ScopeGraph) (t a : ScopeId) (owner : Option NodeId) (name : String) :
    (g.setOwner t owner).getOwn? a name = g.getOwn? a name := g.getOwn?_modify t a (by intro; rfl) name

theorem getOwn?_markDynamic (g : ScopeGraph) (t a : ScopeId) (name : String) :
    (g.markDynamic t).getOwn? a name = g.getOwn? a name := g.getOwn?_modify t a (by intro; rfl) name

theorem getOwn?_addChild (g : ScopeGraph) (p a : ScopeId) (name : String) :
    (g.addChild p).2.getOwn? a name = g.getOwn? a name := by
  have hadd : (g.add { parent := some p }).2.getOwn? a name = g.getOwn? a name := by
    rw [getOwn?, get_add]
    split
    next ha =>
      have hget : g.get a = {} := by rw [get, Array.getElem?_eq_none (Nat.le_of_eq ha.symm), Option.getD_none]
      rw [getOwn?, hget]
    · rfl
  exact ((g.add { parent := some p }).2.getOwn?_modify p a (by intro; rfl) name).trans hadd

/-- A change from inside changes one cell at most. -/
theorem Change.one_cell {n : Nat} {g' : ScopeGraph} (h : Change n g g') {a b : ScopeId} {name other : String}
    (hname : g'.getOwn? a name ≠ g.getOwn? a name) (hother : g'.getOwn? b other ≠ g.getOwn? b other) :
    a = b ∧ name = other := by
  have hdeclared {own : ScopeId} {written : String} {value : Value}
      (hname : (g.declare own written value).getOwn? a name ≠ g.getOwn? a name)
      (hother : (g.declare own written value).getOwn? b other ≠ g.getOwn? b other) : a = b ∧ name = other := by
    obtain ⟨rfl, rfl⟩ := eq_of_declare hname
    obtain ⟨rfl, rfl⟩ := eq_of_declare hother
    exact ⟨rfl, rfl⟩
  cases h with
  | opened parent => exact absurd (getOwn?_addChild g parent a name) hname
  | owned _ owner => exact absurd (getOwn?_setOwner g _ a owner name) hname
  | marked _ => exact absurd (getOwn?_markDynamic g _ a name) hname
  | declared _ written value => exact hdeclared hname hother
  | assigned _ written value _ => exact hdeclared hname hother

end ScopeGraph

namespace World

variable {w w' : World} {base value : Value} {key : String} {k : ArrayId}

/-- A write changes the elements of its base at most. -/
theorem setProperty?_array {bound : Nat} {result : Except Cause Unit × World}
    (h : w.setProperty? base key value bound = some result) (hbase : base ≠ .array k) :
    result.2.array k = w.array k := by
  have happly : (w.applyWrite (w.writeOf base key value bound) key value).array k = w.array k := by
    cases base with
    | array id =>
      have hid : k ≠ id := fun heq => hbase (congrArg Value.array heq.symm)
      simp only [writeOf]
      repeat' split
      all_goals first | rfl | exact array_modifyArray_other hid _
    | _ => rfl
  obtain ⟨-, -, rfl⟩ | rfl := w.setProperty?_cases h
  · rfl
  · exact happly

theorem deleteProperty_array (hbase : base ≠ .array k) : (w.deleteProperty base key).2.array k = w.array k := by
  cases base with
  | array id =>
    have hid : k ≠ id := fun heq => hbase (congrArg Value.array heq.symm)
    rw [deleteProperty]
    simp only
    split
    · exact array_modifyArray_other hid _
    · rfl
  | _ => rfl

end World

namespace Hoist

variable {t : Tree} {state : State} {s p : ScopeId}

/-- A visit leaves a blank scope blank, whatever it declares there. -/
theorem step_blank (host : HostRules) (h : state.scopes.Blank s p) (v : Visit) :
    (step host t state v).scopes.Blank s p := by
  have hlink : (link t v.node v.parent state).2.scopes.Blank s p := by
    cases v.parent with
    | none => exact h
    | some parent =>
      obtain ⟨-, hparent, hcells⟩ := get_link (t := t) v.node parent h.lt
      exact h.of_same (size_link v.node parent) hparent hcells
  obtain heq | ⟨target, names, heq⟩ := step_cases host (t := t) (s := state) v
  · rw [heq]
    exact hlink
  · rw [heq]
    exact hlink.declareNew target names

end Hoist

namespace Evaluator

open ScopeGraph

variable {ev : Evaluator} {id : ClosureId} {closure : Closure} {receiver : Value} {args : List Value}
  {w w' : World} {s p : ScopeId} {name : String}

/-! ## What the body declares -/

/-- The names that the body of a closure declares in the scope of its call. -/
def hoistedNames (ev : Evaluator) (closure : Closure) (w : World) : List String :=
  (ev.hoisted closure w).scopes.ownNames w.scopes.size

/-- The world with the scope of a call and the declarations of the body in it. -/
def declaredBody (ev : Evaluator) (closure : Closure) (w : World) : World :=
  { w with scopes := (ev.hoisted closure w).scopes }

/-- The scopes that a body is resolved against: that of its call is its own. -/
def opened (closure : Closure) (w : World) : ScopeGraph :=
  (w.scopes.addChild closure.scope).2.setOwner w.scopes.size (some closure.body)

theorem get_opened (closure : Closure) (w : World) :
    ((opened closure w).get w.scopes.size).owner = some closure.body ∧
      ((opened closure w).get w.scopes.size).cells = ∅ := by
  have hlt := (blank_addChild w.scopes closure.scope).lt
  rw [opened, setOwner, get_modify, if_pos ⟨rfl, hlt⟩]
  exact ⟨rfl, (get_addChild_self w.scopes closure.scope).2.2⟩

theorem blank_opened (closure : Closure) (w : World) :
    (opened closure w).Blank w.scopes.size closure.scope := by
  have hchild := blank_addChild w.scopes closure.scope
  refine hchild.of_same (Nat.le_of_eq (size_modify _ _ _).symm) ?_ ?_ <;>
    rw [opened, setOwner, get_modify, if_pos ⟨rfl, hchild.lt⟩]

theorem hoisted_eq (ev : Evaluator) (closure : Closure) (w : World) : ev.hoisted closure w =
    ev.resolver.run closure.tree closure.body w.scopes.size (opened closure w) := by
  have howner := (get_addChild_self w.scopes closure.scope).1
  rw [hoisted]
  simp only [Resolver.resolveBody, fst_addChild, howner, Option.isNone_none, if_true]
  rfl

theorem hoisted_blank (hresolver : ev.resolver.rules = Hoist.defaultRules) (closure : Closure) (w : World) :
    (ev.hoisted closure w).scopes.Blank w.scopes.size closure.scope := by
  have hfold (visits : List Visit) : ∀ state : Hoist.State, state.scopes.Blank w.scopes.size closure.scope →
      (visits.foldl (Hoist.step ev.resolver.host closure.tree) state).scopes.Blank w.scopes.size
        closure.scope := by
    induction visits with
    | nil => exact fun _ h => h
    | cons v rest ih => exact fun state h => ih _ (Hoist.step_blank _ h v)
  rw [hoisted_eq, Resolver.run_eq_foldl hresolver]
  exact hfold _ _ (blank_opened closure w)

/-- They are those that the declarations of the body declare into it. -/
theorem hoistedNames_eq (hresolver : ev.resolver.rules = Hoist.defaultRules) (ht : closure.tree.Proper)
    (hclasses : closure.tree.PlainClasses closure.body) (hbody : closure.body < closure.tree.size)
    (w : World) :
    ev.hoistedNames closure w = (closure.tree.declaredInto closure.body closure.body).eraseDups := by
  obtain ⟨howner, hcells⟩ := get_opened closure w
  have hstart := Hoist.hoisted_start (t := closure.tree) (blank_opened closure w).lt howner
  have hend := ht.foldl_visits closure.body
    (fun done state => Hoist.Hoisted closure.tree closure.body w.scopes.size (opened closure w) done done state)
    (Hoist.step ev.resolver.host closure.tree) hstart
    fun _ _ _ hv h => h.step ht hbody hclasses ev.resolver.host hv
  rw [← Resolver.run_eq_foldl hresolver, ← hoisted_eq] at hend
  obtain ⟨own, hscope, -, -, -, hnames⟩ := hend.owned closure.body (Or.inl rfl)
  rw [hend.stamps.root_scope] at hscope
  cases hscope
  rw [hoistedNames, ownNames, hnames, Hoist.namesBefore, if_pos rfl, hcells]
  rfl

theorem getOwn?_hoisted (hresolver : ev.resolver.rules = Hoist.defaultRules) (closure : Closure) (w : World)
    (name : String) : (ev.hoisted closure w).scopes.getOwn? w.scopes.size name =
      if name ∈ ev.hoistedNames closure w then some .undefined else none := by
  have hblank := hoisted_blank hresolver closure w
  have hmem : name ∈ ev.hoistedNames closure w ↔
      ((ev.hoisted closure w).scopes.getOwn? w.scopes.size name).isSome = true := mem_ownNames_iff
  cases hcell : (ev.hoisted closure w).scopes.getOwn? w.scopes.size name with
  | none =>
    rw [hcell] at hmem
    exact (if_neg fun h => absurd (hmem.mp h) Bool.false_ne_true).symm
  | some value => rw [if_pos (hmem.mpr (by rw [hcell]; rfl)), hblank.cells name value hcell]

/-! ## What a call brings along -/

theorem getOwn?_withSelf (hs : s < w.scopes.size) (id : ClosureId) (closure : Closure) (name : String) :
    (withSelf id closure s w).scopes.getOwn? s name =
      (w.scopes.getOwn? s name).or (if closure.selfName = some name then some (.closure id) else none) := by
  rw [withSelf]
  cases closure.selfName with
  | none => simp
  | some self =>
    simp only [World.modifyScopes, Option.some.injEq]
    by_cases hown : w.scopes.hasOwn s self = true
    · rw [if_pos hown]
      by_cases hname : self = name
      · subst hname
        obtain ⟨value, hvalue⟩ := Option.isSome_iff_exists.mp (mem_ownNames_iff.mp (hasOwn_iff.mp hown))
        rw [hvalue, Option.some_or]
      · rw [if_neg hname, Option.or_none]
    · rw [if_neg hown, getOwn?_declare hs]
      by_cases hname : self = name
      · subst hname
        have hnone : w.scopes.getOwn? s self = none := by
          cases hcell : w.scopes.getOwn? s self with
          | none => rfl
          | some value => exact absurd (hasOwn_iff.mpr (mem_ownNames_iff.mpr (by rw [hcell]; rfl))) hown
        rw [if_pos rfl, if_pos rfl, hnone, Option.none_or]
      · rw [if_neg hname, if_neg hname, Option.or_none]

theorem scopes_withContext (s : ScopeId) (receiver : Value) (args : List Value) (w : World) :
    (withContext s receiver args w).scopes =
      ((w.scopes.declare s "this" receiver).declare s "arguments" (.array w.arrays.size)).markDynamic s := rfl

theorem getOwn?_withContext (hs : s < w.scopes.size) (receiver : Value) (args : List Value) (name : String) :
    (withContext s receiver args w).scopes.getOwn? s name =
      if name = "arguments" then some (.array w.arrays.size) else
        if name = "this" then some receiver else w.scopes.getOwn? s name := by
  have hthis : s < (w.scopes.declare s "this" receiver).size := by rwa [declare, size_modify]
  rw [scopes_withContext, getOwn?_markDynamic, getOwn?_declare hthis, getOwn?_declare hs]
  simp only [eq_comm]

theorem hangs_withSelf (h : w.scopes.Hangs s p) (id : ClosureId) (closure : Closure) :
    (withSelf id closure s w).scopes.Hangs s p := by
  rw [withSelf]
  split
  next name _ =>
    simp only [World.modifyScopes]
    split
    · exact h
    · exact h.modify s fun _ => rfl
  · exact h

theorem hangs_withContext (h : w.scopes.Hangs s p) (receiver : Value) (args : List Value) :
    (withContext s receiver args w).scopes.Hangs s p := by
  have hthis : (w.scopes.declare s "this" receiver).Hangs s p := h.modify s fun _ => rfl
  have harguments : ((w.scopes.declare s "this" receiver).declare s "arguments"
      (.array w.arrays.size)).Hangs s p := hthis.modify s fun _ => rfl
  rw [scopes_withContext]
  exact harguments.modify s fun _ => rfl

theorem entered_world (ev : Evaluator) (id : ClosureId) (closure : Closure) (receiver : Value)
    (args : List Value) (w : World) : (ev.entered id closure receiver args w).world =
      if closure.isArrow then withSelf id closure w.scopes.size (ev.declaredBody closure w)
      else withContext w.scopes.size receiver args
        (withSelf id closure w.scopes.size (ev.declaredBody closure w)) := rfl

theorem hangs_named (hresolver : ev.resolver.rules = Hoist.defaultRules) (id : ClosureId) (closure : Closure)
    (w : World) : (withSelf id closure w.scopes.size (ev.declaredBody closure w)).scopes.Hangs w.scopes.size
      closure.scope :=
  hangs_withSelf (w := ev.declaredBody closure w) (hoisted_blank hresolver closure w).toHangs id closure

theorem hangs_entered (hresolver : ev.resolver.rules = Hoist.defaultRules) (id : ClosureId)
    (closure : Closure) (receiver : Value) (args : List Value) (w : World) :
    (ev.entered id closure receiver args w).world.scopes.Hangs w.scopes.size closure.scope := by
  have hnamed := hangs_named hresolver id closure w
  rw [entered_world]
  split
  · exact hnamed
  · exact hangs_withContext hnamed receiver args

/-- The cells of a call before its parameters are bound. -/
theorem getOwn?_entered (hresolver : ev.resolver.rules = Hoist.defaultRules) (id : ClosureId)
    (closure : Closure) (receiver : Value) (args : List Value) (w : World) (name : String) :
    (ev.entered id closure receiver args w).world.scopes.getOwn? w.scopes.size name =
      if closure.isArrow = false ∧ name = "arguments" then some (.array w.arrays.size) else
        if closure.isArrow = false ∧ name = "this" then some receiver else
          if name ∈ ev.hoistedNames closure w then some .undefined else
            if closure.selfName = some name then some (.closure id) else none := by
  have hnamed : (withSelf id closure w.scopes.size (ev.declaredBody closure w)).scopes.getOwn? w.scopes.size
      name = if name ∈ ev.hoistedNames closure w then some .undefined else
        if closure.selfName = some name then some (.closure id) else none := by
    have hlt := (hoisted_blank hresolver closure w).lt
    rw [getOwn?_withSelf (w := ev.declaredBody closure w) hlt, declaredBody, getOwn?_hoisted hresolver]
    split
    · rfl
    · exact Option.none_or
  rw [entered_world]
  cases closure.isArrow with
  | true =>
    simp only [if_true, Bool.true_eq_false, false_and, if_false]
    exact hnamed
  | false =>
    simp only [Bool.false_eq_true, if_false, true_and]
    rw [getOwn?_withContext (hangs_named hresolver id closure w).lt, hnamed, withSelf_arrays]
    rfl

/-! ## Parameters -/

/-- All parameters are names, a rest parameter comes last, and no argument leaves a default to be evaluated. -/
def TakesNames : List Param → List Value → Prop
  | [], _ => True
  | param :: rest, args =>
    param.name.isSome = true ∧
      (if param.rest then rest = []
        else param.default.isSome = true → (args.headD .undefined).isUndefined = false) ∧
      TakesNames rest args.tail

/-- The parameter at a place is the last one of a name. -/
structure LastOf (params : List Param) (name : String) (place : Nat) (param : Param) : Prop where
  here : params[place]? = some param
  named : param.name = some name
  last : ∀ later other, place < later → params[later]? = some other → other.name ≠ some name

theorem exists_lastOf {params : List Param} (h : ∃ param ∈ params, param.name = some name) :
    ∃ place param, LastOf params name place param := by
  induction params with
  | nil =>
    obtain ⟨param, hmem, -⟩ := h
    cases hmem
  | cons first rest ih =>
    by_cases hrest : ∃ param ∈ rest, param.name = some name
    · obtain ⟨place, param, hlast⟩ := ih hrest
      refine ⟨place + 1, param, hlast.here, hlast.named, fun later other hlater hother => ?_⟩
      cases later with
      | zero => cases hlater
      | succ later => exact hlast.last later other (Nat.lt_of_succ_lt_succ hlater) hother
    · obtain ⟨param, hmem, hname⟩ := h
      obtain rfl | hmem := List.mem_cons.mp hmem
      · refine ⟨0, param, rfl, hname, fun later other hlater hother heq => ?_⟩
        cases later with
        | zero => cases hlater
        | succ later => exact hrest ⟨other, List.mem_of_getElem? hother, heq⟩
      · exact absurd ⟨param, hmem, hname⟩ hrest

/-- What the parameter at a place takes: the argument there, or a fresh array of all from there on. -/
def Takes (param : Param) (args : List Value) (place : Nat) (w w' : World) (cell : Option Value) : Prop :=
  if param.rest then ∃ rest, cell = some (.array rest) ∧ w.arrays.size ≤ rest ∧ rest < w'.arrays.size ∧
    w'.array rest = (args.drop place).toArray
  else cell = some (args.getD place .undefined)

/-- What binding parameters that are names does to a scope. -/
structure Binds (params : List Param) (args : List Value) (s : ScopeId) (w w' : World) : Prop where
  hangs : ∀ p, w.scopes.Hangs s p → w'.scopes.Hangs s p
  sizes : w.arrays.size ≤ w'.arrays.size
  arrays : ∀ k < w.arrays.size, w'.array k = w.array k
  /-- the last parameter of a name decides -/
  takes : ∀ name place param, LastOf params name place param →
    Takes param args place w w' (w'.scopes.getOwn? s name)
  other : ∀ name, (¬ ∃ param ∈ params, param.name = some name) →
    w'.scopes.getOwn? s name = w.scopes.getOwn? s name

theorem binds_nil (args : List Value) (s : ScopeId) (w : World) : Binds [] args s w w where
  hangs _ h := h
  sizes := Nat.le_refl _
  arrays _ _ := rfl
  takes _ _ _ h := by cases h.here
  other _ _ := rfl

/-- A parameter takes the next argument, and the parameters after it may take its name over. -/
theorem Binds.cons {param : Param} {params : List Param} (hname : param.name = some name)
    (hrest : param.rest = false) (hs : s < w.scopes.size)
    (h : Binds params args.tail s (w.modifyScopes fun g => g.declare s name (args.headD .undefined)) w') :
    Binds (param :: params) args s w w' where
  hangs p hp := h.hangs p (hp.modify s fun _ => rfl)
  sizes := h.sizes
  arrays := h.arrays
  takes other place last hlast := by
    cases place with
    | zero =>
      obtain rfl : param = last := Option.some.inj hlast.here
      have hunnamed : ¬ ∃ param ∈ params, param.name = some other := by
        rintro ⟨param, hmem, heq⟩
        obtain ⟨later, hlater⟩ := List.mem_iff_getElem?.mp hmem
        exact hlast.last (later + 1) param (Nat.succ_pos _) hlater heq
      have hcell : w'.scopes.getOwn? s other = some (args.headD .undefined) := by
        rw [h.other other hunnamed, World.modifyScopes, getOwn?_declare hs,
          if_pos (Option.some.inj (hname.symm.trans hlast.named))]
      rw [Takes, hrest]
      cases args <;> exact hcell
    | succ place =>
      have htail := h.takes other place last ⟨hlast.here, hlast.named, fun later param hlater =>
        hlast.last (later + 1) param (Nat.succ_lt_succ hlater)⟩
      have hdrop : args.tail.drop place = args.drop (place + 1) := by cases args <;> simp
      have hget : args.tail.getD place .undefined = args.getD (place + 1) .undefined := by cases args <;> simp
      rw [Takes, hdrop, hget] at htail
      exact htail
  other name' hnone := by
    have hne : name ≠ name' := by
      rintro rfl
      exact hnone ⟨param, List.mem_cons_self, hname⟩
    have hrest : ¬ ∃ param ∈ params, param.name = some name' := by
      rintro ⟨param, hmem, heq⟩
      exact hnone ⟨param, List.mem_cons_of_mem _ hmem, heq⟩
    rw [h.other name' hrest, World.modifyScopes, getOwn?_declare hs, if_neg hne]

/-- A rest parameter takes all that is left into an array of its own. -/
theorem binds_rest {param : Param} (hname : param.name = some name) (hrest : param.rest = true)
    (hs : s < w.scopes.size) : Binds [param] args s w
      ((w.newArray args.toArray).2.modifyScopes fun g => g.declare s name (.array w.arrays.size)) where
  hangs p hp := hp.modify s fun _ => rfl
  sizes := by simp [World.newArray, World.modifyScopes]
  arrays k hk := by simp [World.newArray, World.modifyScopes, World.array, Array.getElem?_push, Nat.ne_of_lt hk]
  takes other place last hlast := by
    cases place with
    | succ place => cases hlast.here
    | zero =>
      obtain rfl : param = last := Option.some.inj hlast.here
      obtain rfl : name = other := Option.some.inj (hname.symm.trans hlast.named)
      rw [Takes, if_pos hrest]
      refine ⟨w.arrays.size, ?_, Nat.le_refl _, by simp [World.newArray, World.modifyScopes], ?_⟩
      · exact (getOwn?_declare hs name name _).trans (if_pos rfl)
      · simp [World.newArray, World.modifyScopes, World.array]
  other name' hnone := by
    have hne : name ≠ name' := by
      rintro rfl
      exact hnone ⟨param, List.mem_cons_self, hname⟩
    exact (getOwn?_declare hs name name' _).trans (if_neg hne)

/-- Binding parameters that are names asks for nothing. -/
theorem binds_parameters (c : Context) {params : List Param} (h : TakesNames params args)
    (hs : s < w.scopes.size) :
    ∃ w', bindParameters c s params args w = .done (.ok ()) w' ∧ Binds params args s w w' := by
  induction params generalizing args w with
  | nil => exact ⟨w, rfl, binds_nil args s w⟩
  | cons param params ih =>
    obtain ⟨hsome, hkind, hparams⟩ := h
    obtain ⟨name, hname⟩ := Option.isSome_iff_exists.mp hsome
    cases hrest : param.rest with
    | false =>
      rw [hrest, if_neg Bool.false_ne_true] at hkind
      have hgiven : argumentFor param args = pure (args.headD .undefined) := by
        rw [argumentFor, hrest, if_neg Bool.false_ne_true]
      have hvalue : valueFor c s param (args.headD .undefined) = pure (args.headD .undefined) := by
        rw [valueFor]
        split
        next default hdefault =>
          rw [hkind (by rw [hdefault]; rfl), if_neg Bool.false_ne_true]
        · rfl
      have hbind : bindParameter c s param (args.headD .undefined) =
          Eval.scopes fun g => g.declare s name (args.headD .undefined) := by
        rw [bindParameter, hname]
      obtain ⟨w', hbound, hbinds⟩ := ih (w := w.modifyScopes fun g => g.declare s name (args.headD .undefined))
        hparams (by rwa [World.modifyScopes, declare, size_modify])
      refine ⟨w', ?_, hbinds.cons hname hrest hs⟩
      rw [bindParameters, hgiven, pure_bind, hvalue, pure_bind, hbind, hrest, if_neg Bool.false_ne_true]
      exact hbound
    | true =>
      rw [hrest, if_pos rfl] at hkind
      subst hkind
      have hgiven : argumentFor param args = Eval.makes fun w => w.newArray args.toArray := by
        rw [argumentFor, hrest, if_pos rfl]
      have hvalue (k : ArrayId) : valueFor c s param (.array k) = pure (.array k) := by
        rw [valueFor]
        split
        · rfl
        · rfl
      have hbind (value : Value) : bindParameter c s param value =
          Eval.scopes fun g => g.declare s name value := by
        rw [bindParameter, hname]
      refine ⟨_, ?_, binds_rest hname hrest hs⟩
      have hstep : bindParameters c s [param] args = (do
          let given ← Eval.makes fun w => w.newArray args.toArray
          let value ← valueFor c s param given
          bindParameter c s param value : Eval Unit) := by
        rw [bindParameters, hgiven]
        simp only [bindParameters, bind_pure_unit]
      rw [hstep]
      change (valueFor c s param (.array w.arrays.size) >>= bindParameter c s param)
        (w.newArray args.toArray).2 = _
      rw [hvalue, pure_bind, hbind]
      rfl

/-! ## The call -/

/-- What the scope of a call is like when its body is about to be evaluated. -/
structure SetUp (ev : Evaluator) (id : ClosureId) (closure : Closure) (receiver : Value) (args : List Value)
    (w w' : World) : Prop where
  /-- It is a new scope, beneath the one that the closure captured. -/
  hangs : w'.scopes.Hangs w.scopes.size closure.scope
  names : ∀ name, name ∈ w'.scopes.ownNames w.scopes.size ↔
    (∃ param ∈ closure.params, param.name = some name) ∨ (closure.isArrow = false ∧ IsContextName name) ∨
      name ∈ ev.hoistedNames closure w ∨ closure.selfName = some name
  parameter : ∀ name place param, LastOf closure.params name place param → param.rest = false →
    w'.scopes.getOwn? w.scopes.size name = some (args.getD place .undefined)
  rest : ∀ name place param, LastOf closure.params name place param → param.rest = true →
    ∃ rest, w'.scopes.getOwn? w.scopes.size name = some (.array rest) ∧ w.arrays.size ≤ rest ∧
      rest < w'.arrays.size ∧ (closure.isArrow = false → rest ≠ w.arrays.size) ∧
        w'.array rest = (args.drop place).toArray
  receiver : closure.isArrow = false → (¬ ∃ param ∈ closure.params, param.name = some "this") →
    w'.scopes.getOwn? w.scopes.size "this" = some receiver
  arguments : closure.isArrow = false → (¬ ∃ param ∈ closure.params, param.name = some "arguments") →
    w'.scopes.getOwn? w.scopes.size "arguments" = some (.array w.arrays.size)
  elements : closure.isArrow = false → w.arrays.size < w'.arrays.size ∧ w'.array w.arrays.size = args.toArray
  declared : ∀ name, (¬ ∃ param ∈ closure.params, param.name = some name) →
    ¬ (closure.isArrow = false ∧ IsContextName name) → name ∈ ev.hoistedNames closure w →
      w'.scopes.getOwn? w.scopes.size name = some .undefined
  self : ∀ name, (¬ ∃ param ∈ closure.params, param.name = some name) →
    ¬ (closure.isArrow = false ∧ IsContextName name) → name ∉ ev.hoistedNames closure w →
      closure.selfName = some name → w'.scopes.getOwn? w.scopes.size name = some (.closure id)
  /-- The arrays that there were are not touched. -/
  kept : ∀ k < w.arrays.size, w'.array k = w.array k
  /-- The body declares the names that its declarations declare into it. -/
  hoisted : closure.tree.Proper → closure.tree.PlainClasses closure.body → closure.body < closure.tree.size →
    ev.hoistedNames closure w = (closure.tree.declaredInto closure.body closure.body).eraseDups

/-- Entering a call makes the array of the arguments, if any. -/
theorem entered_arrays_kept (ev : Evaluator) (id : ClosureId) (closure : Closure) (receiver : Value)
    (args : List Value) (w : World) :
    w.arrays.size ≤ (ev.entered id closure receiver args w).world.arrays.size ∧
      ∀ k < w.arrays.size, (ev.entered id closure receiver args w).world.array k = w.array k := by
  cases hkind : closure.isArrow with
  | false =>
    have hpush := ev.entered_arrays id hkind receiver args w
    refine ⟨by rw [hpush, Array.size_push]; exact Nat.le_succ _, fun k hk => ?_⟩
    rw [World.array, hpush, Array.getElem?_push, if_neg (Nat.ne_of_lt hk), World.array]
  | true =>
    have hsame : (ev.entered id closure receiver args w).world.arrays = w.arrays := by
      rw [entered_world, hkind, if_pos rfl]
      exact withSelf_arrays id closure _ _
    refine ⟨Nat.le_of_eq (by rw [hsame]), fun k _ => ?_⟩
    rw [World.array, hsame, World.array]

/-- A name that neither a parameter nor an ordinary call by itself binds. -/
theorem getOwn?_inner (hresolver : ev.resolver.rules = Hoist.defaultRules)
    (h : Binds closure.params args w.scopes.size (ev.entered id closure receiver args w).world w')
    (hparam : ¬ ∃ param ∈ closure.params, param.name = some name)
    (hcontext : ¬ (closure.isArrow = false ∧ IsContextName name)) : w'.scopes.getOwn? w.scopes.size name =
      if name ∈ ev.hoistedNames closure w then some .undefined else
        if closure.selfName = some name then some (.closure id) else none := by
  rw [h.other name hparam, getOwn?_entered hresolver, if_neg fun hname => hcontext ⟨hname.1, Or.inr hname.2⟩,
    if_neg fun hname => hcontext ⟨hname.1, Or.inl hname.2⟩]

theorem mem_ownNames_call (hresolver : ev.resolver.rules = Hoist.defaultRules)
    (h : Binds closure.params args w.scopes.size (ev.entered id closure receiver args w).world w')
    (name : String) : name ∈ w'.scopes.ownNames w.scopes.size ↔
      (∃ param ∈ closure.params, param.name = some name) ∨ (closure.isArrow = false ∧ IsContextName name) ∨
        name ∈ ev.hoistedNames closure w ∨ closure.selfName = some name := by
  rw [mem_ownNames_iff]
  by_cases hparam : ∃ param ∈ closure.params, param.name = some name
  · obtain ⟨place, param, hlast⟩ := exists_lastOf hparam
    have htakes := h.takes name place param hlast
    refine ⟨fun _ => Or.inl hparam, fun _ => ?_⟩
    rw [Takes] at htakes
    split at htakes
    · obtain ⟨rest, hcell, -⟩ := htakes
      rw [hcell]
      rfl
    · rw [htakes]
      rfl
  · by_cases hcontext : closure.isArrow = false ∧ IsContextName name
    · refine ⟨fun _ => Or.inr (Or.inl hcontext), fun _ => ?_⟩
      rw [h.other name hparam, getOwn?_entered hresolver]
      obtain ⟨hkind, rfl | rfl⟩ := hcontext
      · rw [if_neg fun heq => absurd heq.2 (by decide), if_pos ⟨hkind, rfl⟩]
        rfl
      · rw [if_pos ⟨hkind, rfl⟩]
        rfl
    · rw [getOwn?_inner hresolver h hparam hcontext]
      by_cases hmem : name ∈ ev.hoistedNames closure w
      · rw [if_pos hmem]
        exact ⟨fun _ => Or.inr (Or.inr (Or.inl hmem)), fun _ => rfl⟩
      · rw [if_neg hmem]
        by_cases hself : closure.selfName = some name
        · rw [if_pos hself]
          exact ⟨fun _ => Or.inr (Or.inr (Or.inr hself)), fun _ => rfl⟩
        · rw [if_neg hself]
          simp [hparam, hcontext, hmem, hself]

theorem setUp_of_binds (hresolver : ev.resolver.rules = Hoist.defaultRules)
    (h : Binds closure.params args w.scopes.size (ev.entered id closure receiver args w).world w') :
    ev.SetUp id closure receiver args w w' := by
  obtain ⟨hsize, hkept⟩ := entered_arrays_kept ev id closure receiver args w
  have hmade (hkind : closure.isArrow = false) :
      w.arrays.size < (ev.entered id closure receiver args w).world.arrays.size := by
    rw [ev.entered_arrays id hkind, Array.size_push]
    exact Nat.lt_succ_self _
  exact {
    hangs := h.hangs _ (hangs_entered hresolver id closure receiver args w)
    names := mem_ownNames_call hresolver h
    parameter name place param hlast hrest := by
      have htakes := h.takes name place param hlast
      rwa [Takes, hrest, if_neg Bool.false_ne_true] at htakes
    rest name place param hlast hrest := by
      have htakes := h.takes name place param hlast
      rw [Takes, if_pos hrest] at htakes
      obtain ⟨rest, hcell, hle, hlt, hitems⟩ := htakes
      exact ⟨rest, hcell, Nat.le_trans hsize hle, hlt,
        fun hkind => Nat.ne_of_gt (Nat.lt_of_lt_of_le (hmade hkind) hle), hitems⟩
    receiver hkind hparam := by
      rw [h.other _ hparam, getOwn?_entered hresolver, if_neg fun heq => absurd heq.2 (by decide),
        if_pos ⟨hkind, rfl⟩]
    arguments hkind hparam := by
      rw [h.other _ hparam, getOwn?_entered hresolver, if_pos ⟨hkind, rfl⟩]
    elements hkind := by
      refine ⟨Nat.lt_of_lt_of_le (hmade hkind) h.sizes, ?_⟩
      rw [h.arrays _ (hmade hkind), World.array, ev.entered_arrays id hkind]
      simp
    declared name hparam hcontext hmem := by
      rw [getOwn?_inner hresolver h hparam hcontext, if_pos hmem]
    self name hparam hcontext hmem hself := by
      rw [getOwn?_inner hresolver h hparam hcontext, if_neg hmem, if_pos hself]
    kept k hk := (h.arrays k (Nat.lt_of_lt_of_le hk hsize)).trans (hkept k hk)
    hoisted ht hclasses hbody := hoistedNames_eq hresolver ht hclasses hbody w }

/-- Cells and elements are kept apart: no effect changes two cells, or a cell and an array, and a property is
written and deleted in one array only. -/
structure Unshared (ev : Evaluator) : Prop where
  sides : ∀ w w', World.Effect ev w w' → w'.scopes = w.scopes ∨ w'.arrays = w.arrays
  cells : ∀ w w', World.Effect ev w w' → ∀ a name b other,
    w'.scopes.getOwn? a name ≠ w.scopes.getOwn? a name →
      w'.scopes.getOwn? b other ≠ w.scopes.getOwn? b other → a = b ∧ name = other
  writes : ∀ (w : World) base key value result k,
    w.setProperty? base key value ev.limits.maxArrayLength = some result → base ≠ .array k →
      result.2.array k = w.array k
  deletes : ∀ (w : World) base key k, base ≠ .array k → (w.deleteProperty base key).2.array k = w.array k

theorem unshared (hhost : ev.host.LeavesScopes) : ev.Unshared where
  sides w w' h := by
    cases h with
    | newArray items => exact Or.inl rfl
    | newObject fields => exact Or.inl rfl
    | newClosure closure => exact Or.inl rfl
    | scopes hchange => exact Or.inr rfl
    | write hwrite => exact Or.inl (w.setProperty?_frame hwrite).1
    | delete base key => exact Or.inl (w.deleteProperty_frame base key).1
    | native hnative receiver args => exact Or.inl (hhost _ _ hnative receiver args w)
  cells w w' h a name b other hname hother := by
    have hsame {u : World} (hscopes : u.scopes = w.scopes)
        (hne : u.scopes.getOwn? a name ≠ w.scopes.getOwn? a name) : a = b ∧ name = other :=
      absurd (by rw [hscopes]) hne
    cases h with
    | newArray items => exact hsame rfl hname
    | newObject fields => exact hsame rfl hname
    | newClosure closure => exact hsame rfl hname
    | scopes hchange => exact hchange.one_cell hname hother
    | write hwrite => exact hsame (w.setProperty?_frame hwrite).1 hname
    | delete base key => exact hsame (w.deleteProperty_frame base key).1 hname
    | native hnative receiver args => exact hsame (hhost _ _ hnative receiver args w) hname
  writes w base key value result k h hbase := World.setProperty?_array h hbase
  deletes w base key k hbase := World.deleteProperty_array hbase

/-- **A call settles its names by one precedence.** Just before its body is evaluated, the own names of its
scope are those of the parameters, `this` and `arguments` of an ordinary function, the names that the body
declares, and the function's own name; and what a name holds comes from the first of these that it belongs
to. From then on nothing changes a parameter and `arguments` at once. -/
theorem call_sets_up (hrules : ev.rules = RuleTable.default)
    (hresolver : ev.resolver.rules = Hoist.defaultRules) (hhost : ev.host.LeavesScopes) {depth : Nat}
    (hclosure : w.closure? id = some closure) (hdepth : depth < ev.limits.maxCallDepth)
    (hparams : TakesNames closure.params args) :
    ∃ w' resume, ev.carryOut (.call depth (.closure id) receiver args) w = .ask
        (.eval ⟨closure.tree, (ev.hoisted closure w).links, depth + 1⟩ closure.body w.scopes.size) w' resume ∧
      ev.SetUp id closure receiver args w w' ∧
      (∀ steps, ∀ later ∈ ev.worlds steps (.eval ⟨closure.tree, (ev.hoisted closure w).links, depth + 1⟩
        closure.body w.scopes.size) w', Relation.ReflTransGen (World.Effect ev) w' later) ∧
      ev.Unshared := by
  obtain ⟨w', hbound, hbinds⟩ := binds_parameters
    (ev.context ⟨closure.tree, (ev.hoisted closure w).links, depth + 1⟩) hparams
    (hangs_entered hresolver id closure receiver args w).lt
  have hcall : ev.callValue depth (.closure id) receiver args w =
      body (ev.context ⟨closure.tree, (ev.hoisted closure w).links, depth + 1⟩) closure w.scopes.size args
        (ev.entered id closure receiver args w).world := by
    rw [callValue_of_some ev hclosure, callClosure_of_lt ev hdepth]
    rfl
  have hasks : ∃ resume, ev.carryOut (.call depth (.closure id) receiver args) w = .ask
      (.eval ⟨closure.tree, (ev.hoisted closure w).links, depth + 1⟩ closure.body w.scopes.size) w' resume := by
    change ∃ resume, ((ev.callValue depth (.closure id) receiver args w).andThen _) = _
    rw [hcall]
    change ∃ resume, (((bindParameters _ _ _ _ _).andThen _).andThen _) = _
    rw [hbound]
    exact ⟨_, rfl⟩
  obtain ⟨resume, hask⟩ := hasks
  refine ⟨w', resume, hask, setUp_of_binds hresolver hbinds, fun steps later hlater => ?_, unshared hhost⟩
  have hworlds := pairwise_worlds (@stretches_effects ev hrules hresolver steps (.eval
    ⟨closure.tree, (ev.hoisted closure w).links, depth + 1⟩ closure.body w.scopes.size) w')
  obtain rfl | hstop := List.mem_cons.mp hlater
  · exact .refl
  · exact (List.pairwise_cons.mp hworlds).1 later hstop

/-- `{ var a, y }`, as the tree of a body. -/
def namingBody : Tree where
  nodes := #[⟨"Identifier", [("name", .str "a")]⟩, ⟨"VariableDeclarator", [("id", .node 0)]⟩,
    ⟨"Identifier", [("name", .str "y")]⟩, ⟨"VariableDeclarator", [("id", .node 2)]⟩,
    ⟨"VariableDeclaration", [("kind", .str "var"), ("declarations", .list [some 1, some 3])]⟩,
    ⟨"BlockStatement", [("body", .list [some 4])]⟩]
  root := 5

/-- `function f(a, a, ...more) { var a, y }`, as a function expression. -/
def namingClosure : Closure where
  name := some "f"
  selfName := some "f"
  kind := .ordinary
  params := [⟨0, some "a", none, false⟩, ⟨0, some "a", none, false⟩, ⟨0, some "more", none, true⟩]
  node := 5
  body := 5
  expressionBody := false
  tree := namingBody
  scope := 0

def namingWorld : World where
  scopes := (ScopeGraph.addRoot {} none).2
  closures := #[namingClosure]

theorem call_sets_up_naming : ∃ w' resume,
    standard.carryOut (.call 0 (.closure 0) .null [.str "one", .str "two", .str "three"]) namingWorld =
      .ask (.eval ⟨namingBody, (standard.hoisted namingClosure namingWorld).links, 1⟩ 5 1) w' resume ∧
    w'.scopes.getOwn? 1 "a" = some (.str "two") ∧ w'.scopes.getOwn? 1 "y" = some .undefined ∧
    w'.scopes.getOwn? 1 "this" = some .null ∧ w'.scopes.getOwn? 1 "arguments" = some (.array 0) ∧
    w'.scopes.getOwn? 1 "f" = some (.closure 0) := by
  have hplain : TakesNames namingClosure.params [.str "one", .str "two", .str "three"] := by
    simp [TakesNames, namingClosure]
  obtain ⟨w', resume, hask, hsetUp, -⟩ := @call_sets_up standard 0 namingClosure .null _ namingWorld
    standard_rules standard_resolver Host.standard_leavesScopes 0 rfl (by decide) hplain
  refine ⟨w', resume, hask, ?_, ?_, ?_, ?_, ?_⟩
  · refine hsetUp.parameter "a" 1 ⟨0, some "a", none, false⟩
      ⟨rfl, rfl, fun later other hlater hother => ?_⟩ rfl
    have hrest : later = 2 ∧ other = ⟨0, some "more", none, true⟩ := by
      match later, hlater, hother with
      | 2, _, hother => exact ⟨rfl, (Option.some.inj hother).symm⟩
    rw [hrest.2]
    decide
  · exact hsetUp.declared "y" (by decide) (by simp [IsContextName]) (by decide +kernel)
  · exact hsetUp.receiver rfl (by decide)
  · exact hsetUp.arguments rfl (by decide)
  · exact hsetUp.self "f" (by decide) (by simp [IsContextName]) (by decide +kernel) rfl

end Evaluator

end ScriptCore

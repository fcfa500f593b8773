import ScriptCore.Proofs.Eval.Enumeration
import ScriptCore.Proofs.Eval.Limits

/-!
# Taking values apart

What a pattern with a rest element makes of its source. The elements of an array pattern get the items of the
source and the rest element a fresh array of those that are left. The members of an object pattern get the
properties under their keys, and the rest element a fresh object of the fields that are left. That is what
spreading the source gives, without the keys; but arrays and strings can be spread while their rest is
empty (`Evaluator.destructuring_partitions`).
-/
namespace ScriptCore

/-! ## Rest -/

namespace World

variable {w : World} {value : Value}

/-- What is left of a value without the used keys. -/
structure IsRest (w : World) (value : Value) (used : List String) (fields : Dict Value) : Prop where
  reads : ¬ value.HasElements →
    w.ReadsAs value ((w.enumerableKeys value).filter fun key => !used.contains key) fields.entries
  spread : ¬ value.HasElements → value.isNullish = false →
    ∃ spread, Context.copyProperties w value ∅ = .ok spread ∧
      fields.entries = spread.entries.filter fun entry => !used.contains entry.1
  nothing : value.HasElements → fields.entries = []

theorem isRest_unusedFields (w : World) (value : Value) (used : List String) :
    w.IsRest value used (Context.unusedFields w value used) := by
  have hreads (helements : ¬ value.HasElements) :
      w.ReadsAs value ((w.enumerableKeys value).filter fun key => !used.contains key)
        (Context.unusedFields w value used).entries := by
    cases value with
    | object id =>
      rw [Context.unusedFields, Dict.entries_filterKeys]
      exact (readsAs_object id).filter _
    | array id => exact absurd trivial helements
    | str s => exact absurd trivial helements
    | _ => exact .nil
  refine ⟨hreads, fun helements hnullish => ?_, fun helements => ?_⟩
  · obtain ⟨spread, hspread, hall⟩ := w.spread_readsAs value
    exact ⟨spread, hspread, (hreads helements).unique (hall.filter fun key => !used.contains key)⟩
  · cases value with
    | array id => rfl
    | str s => rfl
    | _ => exact helements.elim

theorem IsRest.of_same {w' : World} {used : List String} {fields : Dict Value} (h : w'.IsRest value used fields)
    (hsame : SameProperties value w w') : w.IsRest value used fields := by
  obtain ⟨hkeys, hget⟩ := hsame
  refine ⟨fun helements => ?_, fun helements hnullish => ?_, h.nothing⟩
  · have hreads := h.reads helements
    rw [ReadsAs, hkeys, hget] at hreads
    exact hreads
  · have hspread := h.spread helements hnullish
    simp only [Context.copyProperties, hkeys, hget] at hspread
    exact hspread

end World

/-! ## Patterns part by part -/

namespace Tree

variable (t : Tree) (p : NodeId)

/-- A rest element that binds the argument. -/
def IsRestElement (argument : NodeId) : Prop :=
  t.is p "RestElement" = true ∧ t.child? p "argument" = some argument

/-- An object pattern of members and, last, a rest element. -/
def IsObjectWithRest (members : List NodeId) (argument : NodeId) : Prop :=
  t.tag p = "ObjectPattern" ∧ (∀ member ∈ members, t.is member "RestElement" = false) ∧
    ∃ rest, t.present p "properties" = members ++ [rest] ∧ t.IsRestElement rest argument

/-- An array pattern of elements, with holes, and, last, a rest element. -/
def IsArrayWithRest (elements : List (Option NodeId)) (argument : NodeId) : Prop :=
  t.tag p = "ArrayPattern" ∧ (∀ element, some element ∈ elements → t.is element "RestElement" = false) ∧
    ∃ rest, t.children p "elements" = elements ++ [some rest] ∧ t.IsRestElement rest argument

end Tree

def Task.isBinding : Task → Bool
  | .bind _ _ _ _ _ => true
  | _ => false

/-- A member of an object pattern with the key that it came to and the errand in which its part was bound. -/
structure Taken where
  member : NodeId
  key : String
  errand : Errand

namespace Taken

variable (ev : Evaluator) (c : Context) (value : Value) (s : ScopeId) (binding : Binding) (x : Taken)

/-- The key of the member was evaluated right before its part was bound. -/
def IsKeyed : Prop :=
  ∃ w errands, (c.propertyKey x.member "key" s w).Takes ev errands (.ok x.key) x.errand.start

/-- The part of the member was bound to the property that the value has in a world. -/
def IsBound (w : World) : Prop :=
  ∃ part item, c.tree.child? x.member "value" = some part ∧
    x.errand.task = .bind c.toActivation part item s binding ∧ w.getProperty value x.key = .ok item

variable {ev c value s binding x}

theorem IsBound.of_same {w w' : World} (h : x.IsBound c value s binding w')
    (hsame : World.SameProperties value w w') : x.IsBound c value s binding w := by
  obtain ⟨part, item, hpart, htask, hitem⟩ := h
  rw [hsame.2] at hitem
  exact ⟨part, item, hpart, htask, hitem⟩

/-- The key of a member is its identifier, unless it is computed. -/
theorem IsKeyed.eq_name (h : x.IsKeyed ev c s) {node : NodeId} {name : String}
    (hnode : c.tree.child? x.member "key" = some node) (hcomputed : c.tree.flag x.member "computed" = false)
    (hname : c.tree.identifierName? node = some name) : x.key = name := by
  obtain ⟨w, errands, htakes⟩ := h
  rw [Context.propertyKey] at htakes
  obtain ⟨child, hchild, hkey⟩ := Context.takes_require htakes
  obtain rfl : child = node := Option.some.inj (hchild.symm.trans hnode)
  rw [hcomputed] at hkey
  simp only [Bool.false_eq_true, if_false, hname] at hkey
  exact (Eval.takes_pure hkey).2.1.symm

end Taken

/-- The members of an object pattern are bound one after another; apart from that only keys are evaluated, and
nothing is done in between. -/
structure BindsMembers (ev : Evaluator) (c : Context) (value : Value) (s : ScopeId) (binding : Binding) (w : World)
    (taken : List Taken) (errands : List Errand) (w' : World) : Prop where
  chain : Errand.Chain w errands w'
  bindings : errands.filter (fun errand => errand.task.isBinding) = taken.map Taken.errand
  evaluations : ∀ errand ∈ errands, errand.task.isBinding = false → ∃ m, errand.task = .eval c.toActivation m s
  keyed : ∀ x ∈ taken, x.IsKeyed ev c s
  bound : ∀ x ∈ taken, x.IsBound c value s binding x.errand.start

theorem BindsMembers.cons {ev : Evaluator} {c : Context} {value : Value} {s : ScopeId} {binding : Binding}
    {w w' : World} {x : Taken} {taken : List Taken} {evals errands : List Errand}
    (hkey : (c.propertyKey x.member "key" s w).Takes ev evals (.ok x.key) x.errand.start)
    (hx : x.IsBound c value s binding x.errand.start)
    (h : BindsMembers ev c value s binding x.errand.stop taken errands w') :
    BindsMembers ev c value s binding w (x :: taken) (evals ++ x.errand :: errands) w' := by
  obtain ⟨hchain, hevals⟩ := Context.takes_propertyKey hkey
  have hnone : evals.filter (fun errand => errand.task.isBinding) = [] := by
    refine List.filter_eq_nil_iff.mpr fun errand herrand => ?_
    obtain ⟨m, hm⟩ := hevals errand herrand
    simp [hm, Task.isBinding]
  have hbinding : x.errand.task.isBinding = true := by
    obtain ⟨part, item, -, htask, -⟩ := hx
    rw [htask]
    rfl
  refine ⟨hchain.append ⟨rfl, h.chain⟩, ?_, fun errand herrand hother => ?_,
    List.forall_mem_cons.mpr ⟨⟨w, evals, hkey⟩, h.keyed⟩, List.forall_mem_cons.mpr ⟨hx, h.bound⟩⟩
  · rw [List.filter_append, hnone, List.nil_append, List.filter_cons, if_pos hbinding, h.bindings]
    rfl
  · obtain herrand | herrand := List.mem_append.mp herrand
    · exact hevals errand herrand
    · obtain rfl | herrand := List.mem_cons.mp herrand
      · rw [hbinding] at hother
        cases hother
      · exact h.evaluations errand herrand hother

/-- If no errand changes the properties of the value, then they are the same at the end and whenever a part is
bound. -/
theorem BindsMembers.same {ev : Evaluator} {c : Context} {value : Value} {s : ScopeId} {binding : Binding}
    {w w' : World} {taken : List Taken} {errands : List Errand}
    (h : BindsMembers ev c value s binding w taken errands w')
    (hquiet : ∀ errand ∈ errands, World.SameProperties value errand.start errand.stop) :
    World.SameProperties value w w' ∧ ∀ x ∈ taken, World.SameProperties value w x.errand.start := by
  obtain ⟨hend, hstarts⟩ := h.chain.keeps (R := World.SameProperties value) (fun w => ⟨rfl, rfl⟩)
    (fun hfirst hsecond => ⟨hsecond.1.trans hfirst.1, hsecond.2.trans hfirst.2⟩) hquiet
  refine ⟨hend, fun x hx => hstarts x.errand ?_⟩
  have hmem : x.errand ∈ taken.map Taken.errand := List.mem_map_of_mem hx
  rw [← h.bindings] at hmem
  exact List.mem_of_mem_filter hmem

/-- The tasks of the elements of an array pattern, each with its item. -/
def elementTasks (a : Activation) (s : ScopeId) (binding : Binding) (items : List Value)
    (elements : List (Option NodeId)) (first : Nat) : List Task :=
  (elements.zipIdx first).filterMap fun (element, i) =>
    element.map fun element => .bind a element (items.getD i .undefined) s binding

namespace Context

variable {ev : Evaluator} {c : Context} {value : Value} {s : ScopeId} {binding : Binding} {w w' : World}
  {errands : List Errand} {rest argument : NodeId}

theorem takes_members {members : List NodeId} {used : List String}
    (hmembers : ∀ member ∈ members, c.tree.is member "RestElement" = false)
    (h : (c.bindProperties value s binding used (members ++ [rest]) w).Takes ev errands (.ok ()) w') :
    ∃ taken before after w₁, taken.map Taken.member = members ∧ errands = before ++ after ∧
      BindsMembers ev c value s binding w taken before w₁ ∧
      (c.bindProperties value s binding (used ++ taken.map Taken.key) [rest] w₁).Takes ev after (.ok ()) w' := by
  induction members generalizing used w errands with
  | nil => exact ⟨[], [], errands, w, rfl, rfl, ⟨rfl, rfl, by simp, by simp, by simp⟩, by simpa using h⟩
  | cons member members ih =>
    obtain ⟨hmember, hmembers⟩ := List.forall_mem_cons.mp hmembers
    rw [List.cons_append, bindProperties, if_neg (by simp [hmember])] at h
    obtain ⟨evals, others, key, w₁, rfl, hkey, hrequire⟩ := h.of_andThen
    obtain ⟨part, hpart, hchecks⟩ := takes_require hrequire
    obtain ⟨item, hitem, hbind⟩ := Eval.takes_checks hchecks
    obtain ⟨given, w₂, errands, rfl, hothers⟩ := takes_bind_then hbind
    obtain ⟨taken, before, after, w₃, rfl, rfl, hbinds, hafter⟩ := ih hmembers hothers
    let x : Taken := ⟨member, key, ⟨.bind c.toActivation part item s binding, w₁, .ok given, w₂⟩⟩
    have hx : x.IsBound c value s binding w₁ := ⟨part, item, hpart, rfl, hitem⟩
    refine ⟨x :: taken, evals ++ x.errand :: before, after, w₃, rfl, by simp [x], .cons hkey hx hbinds, ?_⟩
    simpa [x] using hafter

theorem takes_objectRest {used : List String} (hrest : c.tree.IsRestElement rest argument)
    (h : (c.bindProperties value s binding used [rest] w).Takes ev errands (.ok ()) w') :
    ∃ given, errands = [⟨.bind c.toActivation argument (w.newObject (unusedFields w value used)).1 s binding,
      (w.newObject (unusedFields w value used)).2, .ok given, w'⟩] := by
  obtain ⟨hrest, hargument⟩ := hrest
  rw [bindProperties, if_pos hrest] at h
  obtain ⟨child, hchild, hmakes⟩ := takes_require h
  obtain rfl : child = argument := Option.some.inj (hchild.symm.trans hargument)
  have hbind := Eval.takes_makes hmakes
  obtain ⟨given, w₁, errands, rfl, hdone⟩ := takes_bind_then hbind
  obtain ⟨rfl, -, rfl⟩ := Eval.takes_pure hdone
  exact ⟨given, rfl⟩

theorem takes_elements {all : List Value} {elements : List (Option NodeId)} {first : Nat}
    (helements : ∀ element, some element ∈ elements → c.tree.is element "RestElement" = false)
    (h : (c.bindElements (all.drop first) s binding (elements ++ [some rest]) w).Takes ev errands (.ok ()) w') :
    ∃ before after w₁, errands = before ++ after ∧ Errand.Chain w before w₁ ∧
      before.map Errand.task = elementTasks c.toActivation s binding all elements first ∧
      (c.bindElements (all.drop (first + elements.length)) s binding [some rest] w₁).Takes ev after (.ok ()) w' := by
  -- all items stay in view: those that are left are the ones from `first` on
  induction elements generalizing first w errands with
  | nil => exact ⟨[], errands, w, rfl, rfl, rfl, h⟩
  | cons element elements ih =>
    have hothers (element : NodeId) (hmem : some element ∈ elements) :=
      helements element (List.mem_cons_of_mem _ hmem)
    have hlength : first + (element :: elements).length = first + 1 + elements.length := by
      rw [List.length_cons]
      omega
    have htail : (all.drop first).tail = all.drop (first + 1) := List.tail_drop
    cases element with
    | none =>
      rw [List.cons_append, bindElements, htail] at h
      rw [hlength]
      exact ih hothers h
    | some element =>
      have hplain := helements element List.mem_cons_self
      rw [List.cons_append, bindElements, if_neg (by simp [hplain]), htail] at h
      obtain ⟨given, w₁, errands, rfl, hrest⟩ := takes_bind_then h
      obtain ⟨before, after, w₂, rfl, hchain, htasks, hafter⟩ := ih hothers hrest
      have hitem : (all.drop first).headD .undefined = all.getD first .undefined := by
        rw [List.headD_eq_head?_getD, List.head?_drop, List.getD_eq_getElem?_getD]
      refine ⟨_ :: before, after, w₂, rfl, ⟨rfl, hchain⟩, ?_, by rw [hlength]; exact hafter⟩
      rw [List.map_cons, htasks, hitem]
      rfl

theorem takes_arrayRest {items : List Value} (hrest : c.tree.IsRestElement rest argument)
    (h : (c.bindElements items s binding [some rest] w).Takes ev errands (.ok ()) w') :
    ∃ given, errands = [⟨.bind c.toActivation argument (w.newArray items.toArray).1 s binding,
      (w.newArray items.toArray).2, .ok given, w'⟩] := by
  obtain ⟨hrest, hargument⟩ := hrest
  rw [bindElements, if_pos hrest] at h
  obtain ⟨child, hchild, hmakes⟩ := takes_require h
  obtain rfl : child = argument := Option.some.inj (hchild.symm.trans hargument)
  exact takes_bind (Eval.takes_makes hmakes)

end Context

namespace Evaluator

variable {ev : Evaluator}

/-- **Taking a value apart.** A binding to an object pattern with a rest element last binds the members in
order, each to the property of the value under its key, and then the rest element to a fresh object of what is
left. If no evaluation and no binding of a part changes the properties of the value, then all that is read off
the value as it was at first. A binding to an array pattern with a rest element binds the elements in order,
each to the item at its place or `undefined`, and then the rest element to a fresh array of the items from
there on. -/
theorem destructuring_partitions {steps : Nat} {a : Activation} {p : NodeId} {value result : Value} {s : ScopeId}
    {binding : Binding} {w w' : World}
    (h : ev.perform steps (.bind a p value s binding) w = .ended (.ok result, w')) :
    (∀ members argument, a.tree.IsObjectWithRest p members argument →
      ∃ taken errands w₁ fields given, taken.map Taken.member = members ∧
        BindsMembers ev (ev.context a) value s binding w taken errands w₁ ∧
        w₁.IsRest value (taken.map Taken.key) fields ∧
        ((ev.context a).bindPattern p value s binding w).Takes ev
          (errands ++ [⟨.bind a argument (w₁.newObject fields).1 s binding, (w₁.newObject fields).2, .ok given, w'⟩])
          (.ok ()) w' ∧
        ((∀ errand ∈ errands, World.SameProperties value errand.start errand.stop) →
          (∀ x ∈ taken, x.IsBound (ev.context a) value s binding w) ∧
            w.IsRest value (taken.map Taken.key) fields)) ∧
    (∀ elements argument, a.tree.IsArrayWithRest p elements argument →
      ∃ items errands w₁ given, w.iterate value = .ok items ∧ Errand.Chain w errands w₁ ∧
        errands.map Errand.task = elementTasks a s binding items elements 0 ∧
        ((ev.context a).bindPattern p value s binding w).Takes ev
          (errands ++ [⟨.bind a argument (w₁.newArray (items.drop elements.length).toArray).1 s binding,
            (w₁.newArray (items.drop elements.length).toArray).2, .ok given, w'⟩]) (.ok ()) w') := by
  obtain ⟨errands, _, htakes, -⟩ := takes_of_perform
    (m := (ev.context a).bindPattern p value s binding) (f := fun _ => .undefined) rfl h
  constructor
  · rintro members argument ⟨htag, hmembers, rest, hpresent, hrest⟩
    have htag' : (ev.context a).tree.tag p = "ObjectPattern" := htag
    have hpresent' : (ev.context a).tree.present p "properties" = members ++ [rest] := hpresent
    have hproperties := htakes
    simp only [Context.bindPattern, htag', hpresent'] at hproperties
    obtain ⟨taken, before, after, w₁, hmember, rfl, hbinds, hafter⟩ := Context.takes_members hmembers hproperties
    obtain ⟨given, rfl⟩ := Context.takes_objectRest hrest hafter
    have hleft := w₁.isRest_unusedFields value (taken.map Taken.key)
    refine ⟨taken, before, w₁, _, given, hmember, hbinds, hleft, htakes, fun hquiet => ?_⟩
    obtain ⟨hend, hstarts⟩ := hbinds.same hquiet
    exact ⟨fun x hx => (hbinds.bound x hx).of_same (hstarts x hx), hleft.of_same hend⟩
  · rintro elements argument ⟨htag, helements, rest, hchildren, hrest⟩
    have htag' : (ev.context a).tree.tag p = "ArrayPattern" := htag
    have hchildren' : (ev.context a).tree.children p "elements" = elements ++ [some rest] := hchildren
    have helement := htakes
    simp only [Context.bindPattern, htag', hchildren'] at helement
    obtain ⟨items, hitems, hbind⟩ := Eval.takes_checks helement
    rw [← List.drop_zero (l := items)] at hbind
    obtain ⟨before, after, w₁, rfl, hchain, htasks, hafter⟩ := Context.takes_elements helements hbind
    rw [Nat.zero_add] at hafter
    obtain ⟨given, rfl⟩ := Context.takes_arrayRest hrest hafter
    exact ⟨items, before, w₁, given, hitems, hchain, htasks, htakes⟩

/-- Whether a member of a pattern stands under an identifier. -/
def hasName (t : Tree) (member : NodeId) (name : String) : Bool :=
  !t.is member "RestElement" && !t.flag member "computed" &&
    (t.child? member "key").bind t.identifierName? == some name

theorem key_eq_of_hasName {c : Context} {s : ScopeId} {x : Taken} {name : String} (hkeyed : x.IsKeyed ev c s)
    (hname : hasName c.tree x.member name = true) : x.key = name := by
  simp only [hasName, Bool.and_eq_true, Bool.not_eq_true', beq_iff_eq, Option.bind_eq_some_iff] at hname
  obtain ⟨⟨-, hcomputed⟩, node, hnode, hidentifier⟩ := hname
  exact hkeyed.eq_name hnode hcomputed hidentifier

theorem destructuring_partitions_nested : ∃ (t : Tree) (errands : List Errand) (w₁ : World) (fields : Dict Value)
    (given : Value) (w' : World), Tree.ofJson nestedPattern = .ok t ∧ w₁.IsRest (.object 0) ["x", "y"] fields ∧
    ((standard.context ⟨t, .start t.root 0, 0⟩).bindPattern t.root (.object 0) 0 (.declare 0) patternWorld).Takes
      standard (errands ++ [⟨.bind ⟨t, .start t.root 0, 0⟩ 11 (w₁.newObject fields).1 0 (.declare 0),
        (w₁.newObject fields).2, .ok given, w'⟩]) (.ok ()) w' := by
  obtain ⟨t, ht, hcheck⟩ := Tree.exists_ofJson (j := nestedPattern)
    (p := fun t => t.tag t.root == "ObjectPattern" && t.present t.root "properties" == [5, 10, 12] &&
      hasName t 5 "x" && hasName t 10 "y" && t.is 12 "RestElement" && t.child? 12 "argument" == some 11 &&
      hasValue (standard.perform 40
        (.bind ⟨t, .start t.root 0, 0⟩ t.root (.object 0) 0 (.declare 0)) patternWorld))
    (by decide +kernel)
  simp only [Bool.and_eq_true, beq_iff_eq] at hcheck
  obtain ⟨⟨⟨⟨⟨⟨htag, hpresent⟩, hx⟩, hy⟩, hrest⟩, hargument⟩, hvalue⟩ := hcheck
  obtain ⟨value, w', hrun⟩ := exists_of_hasValue hvalue
  have hplain (member : NodeId) (hmem : member ∈ [5, 10]) : t.is member "RestElement" = false := by
    have hnames : hasName t member "x" = true ∨ hasName t member "y" = true := by
      obtain rfl | rfl : member = 5 ∨ member = 10 := by simpa using hmem
      · exact Or.inl hx
      · exact Or.inr hy
    cases hnames <;> simp_all [hasName]
  obtain ⟨hobject, -⟩ := destructuring_partitions hrun
  obtain ⟨taken, errands, w₁, fields, given, hmembers, hbinds, hleft, htakes, -⟩ :=
    hobject [5, 10] 11 ⟨htag, hplain, 12, hpresent, hrest, hargument⟩
  have hkeys : taken.map Taken.key = ["x", "y"] := by
    have hkeyed := hbinds.keyed
    obtain ⟨first, others, rfl, hfirst, hothers⟩ := List.map_eq_cons_iff.mp hmembers
    obtain ⟨second, others, rfl, hsecond, hnil⟩ := List.map_eq_cons_iff.mp hothers
    obtain rfl := List.map_eq_nil_iff.mp hnil
    rw [← hfirst] at hx
    rw [← hsecond] at hy
    have hfirstKey := key_eq_of_hasName (hkeyed first (by simp)) hx
    have hsecondKey := key_eq_of_hasName (hkeyed second (by simp)) hy
    rw [List.map_cons, List.map_cons, List.map_nil, hfirstKey, hsecondKey]
  rw [hkeys] at hleft
  exact ⟨t, errands, w₁, fields, given, w', ht, hleft, htakes⟩

/-- `var { ...r } = [true];`. -/
def restOfArray : Json :=
  let pattern := Json.ofNode "ObjectPattern" [("properties", .array [
    .ofNode "RestElement" [("argument", .ofName "r")]])]
  let init := Json.ofNode "ArrayExpression" [("elements", .array [
    .ofNode "Literal" [("value", .bool true)]])]
  .ofNode "Program" [("body", .array [.ofNode "VariableDeclaration" [("kind", .string "var"),
    ("declarations", .array [.ofNode "VariableDeclarator" [("id", pattern), ("init", init)]])]])]

/-- Whether a run ends in a world whose only array has an element while `r` names an object without fields. -/
def losesElements : Run (Except Abrupt Value × World) → Bool
  | .ended (.ok _, w) =>
    match w.scopes.get? 0 "r" with
    | some (.object id) => (w.object id).keys == [] && w.enumerableKeys (.array 0) == ["0"]
    | _ => false
  | _ => false

theorem exists_of_losesElements {run : Run (Except Abrupt Value × World)} (h : losesElements run = true) :
    ∃ value id w, run = .ended (.ok value, w) ∧ w.scopes.get? 0 "r" = some (.object id) ∧
      (w.object id).keys = [] ∧ w.enumerableKeys (.array 0) = ["0"] := by
  unfold losesElements at h
  split at h
  next value w =>
    split at h
    next id hr =>
      simp only [Bool.and_eq_true, beq_iff_eq] at h
      exact ⟨value, id, w, rfl, hr, h.1, h.2⟩
    · cases h
  · cases h

/-- The rest of an array is an object without fields, although the array has an element to enumerate. -/
theorem rest_loses_elements : ∃ t r w₁ value id w₂, Tree.ofJson restOfArray = .ok t ∧
    standard.resolve t 0 (World.newRootScope {}).2 = (.ok r, w₁) ∧
    standard.perform 40 (.eval ⟨r.tree, r.links, 0⟩ r.links.root r.links.rootScope) w₁ =
      .ended (.ok value, w₂) ∧
    w₂.scopes.get? 0 "r" = some (.object id) ∧ (w₂.object id).keys = [] ∧
    w₂.enumerableKeys (.array 0) = ["0"] := by
  obtain ⟨t, ht, hfound⟩ := Tree.exists_ofJson (j := restOfArray)
    (p := fun t => standard.resolvesTo t fun r w => losesElements
      (standard.perform 40 (.eval ⟨r.tree, r.links, 0⟩ r.links.root r.links.rootScope) w))
    (by decide +kernel)
  obtain ⟨r, w₁, hresolve, hloses⟩ := exists_of_resolvesTo hfound
  obtain ⟨value, id, w₂, hrun, hr, hkeys, henumerable⟩ := exists_of_losesElements hloses
  exact ⟨t, r, w₁, value, id, w₂, ht, hresolve, hrun, hr, hkeys, henumerable⟩

end Evaluator

end ScriptCore

import ScriptCore.Eval.Rule
import ScriptCore.Proofs.Eval.Site

/-!
# What the rules do

Every default rule keeps to what its site allows (`Rule.does_meaning`), and so does the binding of a
pattern (`Site.does_bindPattern`).
-/
namespace ScriptCore.Site

variable {x : Site} {S : ScopeId → Prop} {n : NodeId} {s : ScopeId}

/-- All of these may be asked for. -/
def AsksAll (x : Site) (nodes : List NodeId) : Prop := ∀ m ∈ nodes, x.asks m

theorem AsksAll.field {keys : List String} (h : x.AsksAll (x.context.tree.inFields n keys)) {key : String}
    (hkey : key ∈ keys) {child : NodeId} (hchild : x.context.tree.child? n key = some child) : x.asks child :=
  h child (Tree.mem_inFields.mpr ⟨key, hkey, hchild⟩)

theorem asksAll_append {nodes nodes' : List NodeId} :
    x.AsksAll (nodes ++ nodes') ↔ x.AsksAll nodes ∧ x.AsksAll nodes' := List.forall_mem_append

theorem AsksAll.of_flatMap {nodes : List NodeId} {parts : NodeId → List NodeId}
    (h : x.AsksAll (nodes.flatMap parts)) {d : NodeId} (hd : d ∈ nodes) : x.AsksAll (parts d) :=
  fun m hm => h m (List.mem_flatMap.mpr ⟨d, hd, hm⟩)

theorem AsksAll.of_field {key : String} {parts : NodeId → List NodeId}
    (h : x.AsksAll ((x.context.tree.inFields n [key]).flatMap parts)) {child : NodeId}
    (hchild : x.context.tree.child? n key = some child) : x.AsksAll (parts child) :=
  h.of_flatMap (Tree.mem_inFields.mpr ⟨key, List.mem_singleton_self key, hchild⟩)

theorem AsksAll.of_place (h : x.AsksAll (x.context.tree.placeParts n))
    (hkind : x.context.tree.is n "MemberExpression" = true) :
    x.AsksAll (x.context.tree.inFields n ["object", "property"]) := by
  rwa [Tree.placeParts, if_pos hkind] at h

/-- All of these may be bound. -/
def BindsAll (x : Site) (declares : Bool) (patterns : List NodeId) : Prop := ∀ p ∈ patterns, x.binds p declares

theorem BindsAll.field {declares : Bool} {key : String}
    (h : x.BindsAll declares (x.context.tree.inFields n [key])) {child : NodeId}
    (hchild : x.context.tree.child? n key = some child) : x.binds child declares :=
  h child (Tree.mem_inFields.mpr ⟨key, List.mem_singleton_self key, hchild⟩)

theorem BindsAll.of_flatMap {declares : Bool} {nodes : List NodeId} {patterns : NodeId → List NodeId}
    (h : x.BindsAll declares (nodes.flatMap patterns)) {d : NodeId} (hd : d ∈ nodes) :
    x.BindsAll declares (patterns d) :=
  fun q hq => h q (List.mem_flatMap.mpr ⟨d, hd, hq⟩)

/-- The name of a place, if it has one, may be assigned to. -/
def Writable (x : Site) (s : ScopeId) : Place → Prop
  | .binding name => x.assigns s name
  | .property _ _ => True

/-- The declarator may write its target, and bind its pattern. -/
def DeclaresPattern (x : Site) (d : NodeId) : Prop :=
  ∀ id, x.context.tree.child? d "id" = some id →
    x.declares d (x.context.tree.bindingNames id) ∧ x.binds id true

/-- The functions among the statements may be declared. -/
def DeclaresFunctions (x : Site) (statements : List NodeId) : Prop :=
  ∀ d ∈ x.context.tree.functionsIn statements,
    x.declares d ((x.context.tree.child? d "id").bind x.context.tree.identifierName?).toList

/-! ## Values and places -/

theorem does_propertyKey {field : String}
    (h : ∀ key, x.context.tree.child? n field = some key → x.asks key) (hs : S s) :
    x.Does S (fun _ => True) (x.context.propertyKey n field s) (x.other.propertyKey n field s) := by
  refine does_require fun key hkey => ?_
  have htree : x.other.tree = x.context.tree := rfl
  rw [htree]
  split
  · exact .pure trivial
  · exact .bind (.eval (h key hkey) hs) fun value _ => .reads _

theorem does_place (h : x.AsksAll (x.context.tree.placeParts n))
    (hassigns : ∀ name, x.context.tree.identifierName? n = some name → x.assigns s name) (hs : S s) :
    x.Does S (x.Writable s) (x.context.place n s) (x.other.place n s) := by
  have htree : x.other.tree = x.context.tree := rfl
  rw [Context.place, Context.place, htree]
  split
  next name hname => exact .pure (hassigns name hname)
  · split
    next hkind =>
      have hparts := h.of_place hkind
      exact does_require fun object hobject => .bind (.eval (hparts.field (by simp) hobject) hs) fun base _ =>
        .bind (does_propertyKey (fun key hkey => hparts.field (by simp) hkey) hs) fun key _ => .pure trivial
    · exact .abrupt _

theorem does_readPlace (place : Place) :
    x.Does S (fun _ => True) (Context.readPlace place s) (Context.readPlace place s) := by
  cases place with
  | binding name => exact .reads _
  | property base key => exact .checks _

theorem does_writePlace {place : Place} (h : x.Writable s place) (value : Value) :
    x.Does S (fun _ => True) (x.context.writePlace place value s) (x.other.writePlace place value s) := by
  cases place with
  | binding name => exact .assign h value
  | property base key => exact .write base key value

theorem does_evalNamed (hn : x.asks n) (hs : S s) (name : Option String) :
    x.Does S (fun _ => True) (x.context.evalNamed n s name) (x.other.evalNamed n s name) := by
  refine .bind (.eval hn hs) fun value _ => ?_
  have hsame : x.other.isAnonymousFunction n = x.context.isAnonymousFunction n := rfl
  split
  next name id =>
    rw [hsame]
    split
    · exact .named name id
    · exact .pure trivial
  · exact .pure trivial

theorem does_evalEach {nodes : List NodeId} (h : x.AsksAll nodes) (hs : S s)
    (last : Value) :
    x.Does S (fun _ => True) (x.context.evalEach s last nodes) (x.other.evalEach s last nodes) := by
  induction nodes generalizing last with
  | nil => exact .pure trivial
  | cons node rest ih =>
    exact .bind (.eval (h node List.mem_cons_self) hs) fun value _ =>
      ih (fun other hother => h other (List.mem_cons_of_mem _ hother)) value

/-! ## Patterns -/

theorem does_bindName {name : String} {binding : Binding}
    (hgives : ∀ target, binding = .declare target → ∃ names, x.gives names target ∧ name ∈ names)
    (hassigns : binding = .assign → x.assigns s name) (value : Value) :
    x.Does S (fun _ => True) (Context.bindName name value s binding)
      (Context.bindName name value s binding) := by
  cases binding with
  | declare target =>
    obtain ⟨names, hnames, hname⟩ := hgives target rfl
    exact .declare (.given hnames) hname value
  | assign => exact .assign (hassigns rfl) value

theorem does_bindElements (hs : S s) {binding : Binding}
    (haims : ∀ {q}, x.binds q binding.declares → x.Aims S q binding binding) {nodes : List (Option NodeId)}
    (h : ∀ node, some node ∈ nodes → x.BindsAll binding.declares (x.context.tree.elementPatterns node))
    (items : List Value) : x.Does S (fun _ => True)
      (x.context.bindElements items s binding nodes) (x.other.bindElements items s binding nodes) := by
  have htree : x.other.tree = x.context.tree := rfl
  induction nodes generalizing items with
  | nil => exact .pure trivial
  | cons node rest ih =>
    have hrest := ih fun other hother => h other (List.mem_cons_of_mem _ hother)
    cases node with
    | none => exact hrest items.tail
    | some element =>
      have hpatterns := h element List.mem_cons_self
      rw [Tree.elementPatterns] at hpatterns
      rw [Context.bindElements, Context.bindElements, htree]
      split
      next hkind =>
        rw [if_pos hkind] at hpatterns
        refine does_require fun argument hchild => .bind (.newArray _) fun gathered _ => ?_
        have hbound := hpatterns.field hchild
        exact .bindTo gathered hbound hs (haims hbound)
      next hkind =>
        rw [if_neg hkind] at hpatterns
        have hbound := hpatterns element (List.mem_singleton_self element)
        exact .bind (.bindTo _ hbound hs (haims hbound)) fun _ _ => hrest items.tail

theorem does_bindProperties (hs : S s) {binding : Binding}
    (haims : ∀ {q}, x.binds q binding.declares → x.Aims S q binding binding) (value : Value)
    {nodes : List NodeId} (hkeys : ∀ node ∈ nodes, x.AsksAll (x.context.tree.memberKeys node))
    (h : ∀ node ∈ nodes, x.BindsAll binding.declares (x.context.tree.memberPatterns node))
    (used : List String) : x.Does S (fun _ => True)
      (x.context.bindProperties value s binding used nodes)
      (x.other.bindProperties value s binding used nodes) := by
  have htree : x.other.tree = x.context.tree := rfl
  induction nodes generalizing used with
  | nil => exact .pure trivial
  | cons member rest ih =>
    have hrest := ih (fun other hother => hkeys other (List.mem_cons_of_mem _ hother))
      fun other hother => h other (List.mem_cons_of_mem _ hother)
    have hasks := hkeys member List.mem_cons_self
    have hpatterns := h member List.mem_cons_self
    rw [Tree.memberKeys] at hasks
    rw [Tree.memberPatterns] at hpatterns
    rw [Context.bindProperties, Context.bindProperties, htree]
    split
    next hkind =>
      rw [if_pos hkind] at hpatterns
      refine does_require fun argument hchild => .bind (.newObject _) fun gathered _ => ?_
      have hbound := hpatterns.field hchild
      exact .bind (.bindTo gathered hbound hs (haims hbound)) fun _ _ => hrest used
    next hkind =>
      rw [if_neg hkind] at hasks hpatterns
      refine .bind (does_propertyKey (fun key hkey => hasks.field (by simp) hkey) hs) fun key _ =>
        does_require fun target hchild => .bind (.checks _) fun item _ => ?_
      have hbound := hpatterns.field hchild
      exact .bind (.bindTo item hbound hs (haims hbound)) fun _ _ => hrest _

/-- **What binding a pattern does.** It keeps to what the site of the pattern allows. -/
theorem does_bindPattern (c : Context) (limits : Limits) (links : Links) (n : NodeId) (hs : S s)
    (value : Value) (binding : Binding) :
    (ofPattern c limits links n s binding).Does S (fun _ => True) (c.bindPattern n value s binding)
      (Context.bindPattern { c with limits := limits, links := links } n value s binding) := by
  let x := ofPattern c limits links n s binding
  have haims {q : NodeId} (hq : x.binds q binding.declares) : x.Aims S q binding binding := by
    cases binding with
    | declare target => exact .declare (.given ⟨rfl, Or.inl ⟨q, hq.1, rfl⟩⟩)
    | assign => exact .assign
  have hasks {nodes : List NodeId} (hall : c.tree.patternValues n = nodes) : x.AsksAll nodes := fun m hm => by
    rw [← hall] at hm
    exact hm
  have hbinds {nodes : List NodeId} (hall : c.tree.subpatterns n = nodes) :
      x.BindsAll binding.declares nodes := fun q hq => ⟨hall ▸ hq, rfl⟩
  change x.Does S (fun _ => True) (x.context.bindPattern n value s binding) (x.other.bindPattern n value s binding)
  have htree : x.other.tree = x.context.tree := rfl
  rw [Context.bindPattern.eq_def x.other, htree]
  fun_cases Context.bindPattern x.context n value s binding with
  | case1 binding htag name hname =>
    simp only [htag, hname]
    refine does_bindName (x := x) (fun target htarget => ⟨_, ⟨htarget, Or.inr rfl⟩, ?_⟩)
      (fun hassign => ⟨rfl, hassign, hname⟩) value
    exact Option.mem_toList.mpr hname
  | case2 _ htag hname =>
    simp only [htag, hname]
    exact .abrupt _
  | case3 htag =>
    simp only [htag]
    have htag : c.tree.tag n = "MemberExpression" := htag
    have hparts := hasks (by simp only [Tree.patternValues, htag]; rfl)
    exact .bind (does_place hparts (fun name hname => ⟨rfl, rfl, hname⟩) hs) fun place hplace =>
      does_writePlace hplace value
  | case4 _ htag =>
    simp only [htag]
    have htag : c.tree.tag n = "AssignmentPattern" := htag
    have hright := hasks (by simp only [Tree.patternValues, htag]; rfl)
    have hleft := hbinds (by simp only [Tree.subpatterns, htag]; rfl)
    refine does_require fun left hchild => ?_
    have hbound := hleft.field hchild
    split
    · exact does_require fun right hchild => .bind (.eval (hright.field (by simp) hchild) hs) fun value _ =>
        .bindTo value hbound hs (haims hbound)
    · exact .bindTo value hbound hs (haims hbound)
  | case5 _ htag =>
    simp only [htag]
    have htag : c.tree.tag n = "ObjectPattern" := htag
    have hkeys := hasks (by simp only [Tree.patternValues, htag]; rfl)
    have hpatterns := hbinds (by simp only [Tree.subpatterns, htag]; rfl)
    exact does_bindProperties hs haims value (fun member hmember => hkeys.of_flatMap hmember)
      (fun member hmember => hpatterns.of_flatMap hmember) []
  | case6 _ htag =>
    simp only [htag]
    have htag : c.tree.tag n = "ArrayPattern" := htag
    have hpatterns := hbinds (by simp only [Tree.subpatterns, htag]; rfl)
    exact .bind (.checks _) fun items _ => does_bindElements hs haims
      (fun element helement => hpatterns.of_flatMap (Tree.mem_present helement)) items
  | case7 _ _ _ _ _ hmember =>
    split
    · contradiction
    next htag => exact absurd rfl (hmember htag)
    · contradiction
    · contradiction
    · contradiction
    · exact .abrupt _

/-! ## Expressions -/

theorem does_identifier :
    x.Does S (fun _ => True) (x.context.identifier n s) (x.other.identifier n s) := by
  have hsame : x.other.identifier n s = x.context.identifier n s := rfl
  rw [hsame, Context.identifier]
  split
  · exact .reads _
  · exact .abrupt _

theorem does_literal : x.Does S (fun _ => True) (x.context.literal n s) (x.other.literal n s) := by
  have hsame : x.other.literal n s = x.context.literal n s := rfl
  rw [hsame, Context.literal]
  split
  · exact .abrupt _
  · split
    · exact .abrupt _
    · split
      · exact .pure trivial
      · exact .pure trivial
      · exact .pure trivial
      · exact .pure trivial
      · exact .abrupt _

theorem does_templateParts (hs : S s) (out : String) (quasis : List (Option NodeId))
    {expressions : List (Option NodeId)} (h : ∀ e, some e ∈ expressions → x.asks e) :
    x.Does S (fun _ => True) (x.context.templateParts s out quasis expressions)
      (x.other.templateParts s out quasis expressions) := by
  induction quasis generalizing out expressions with
  | nil => exact .pure trivial
  | cons quasi rest ih =>
    have htail : ∀ e, some e ∈ expressions.tail → x.asks e :=
      fun e he => h e (List.mem_of_mem_tail he)
    rw [Context.templateParts, Context.templateParts]
    split
    next expression hhead =>
      have hmem : some expression ∈ expressions := by
        cases expressions with
        | nil => cases hhead
        | cons first others =>
          have hfirst : first = some expression := by simpa using hhead
          rw [hfirst]
          exact List.mem_cons_self
      exact .bind (.eval (h expression hmem) hs) fun value _ => .bind (.reads _) fun text _ =>
        ih _ htail
    · exact ih _ htail

theorem does_spread (h : x.AsksAll (x.context.tree.inFields n ["argument"])) (hs : S s) :
    x.Does S (fun _ => True) (x.context.spread n s) (x.other.spread n s) :=
  does_require fun _ hargument => .bind (.eval (h.field (by simp) hargument) hs) fun _ _ => .checks _

theorem does_elements (hs : S s) {nodes : List (Option NodeId)}
    (h : ∀ e, some e ∈ nodes → x.AsksAll (x.context.tree.itemParts e)) (acc : Array Value) :
    x.Does S (fun _ => True) (x.context.elements s acc nodes) (x.other.elements s acc nodes) := by
  have htree : x.other.tree = x.context.tree := rfl
  induction nodes generalizing acc with
  | nil => exact .pure trivial
  | cons node rest ih =>
    have hrest := ih fun other hother => h other (List.mem_cons_of_mem _ hother)
    cases node with
    | none => exact hrest _
    | some element =>
      have hparts := h element List.mem_cons_self
      rw [Tree.itemParts] at hparts
      rw [Context.elements, Context.elements, htree]
      split
      next hkind =>
        rw [if_pos hkind] at hparts
        exact .bind (does_spread hparts hs) fun values _ => hrest _
      next hkind =>
        rw [if_neg hkind] at hparts
        exact .bind (.eval (hparts element (List.mem_singleton_self element)) hs) fun value _ => hrest _

theorem does_properties (hs : S s) {nodes : List NodeId}
    (h : ∀ p ∈ nodes, x.AsksAll (x.context.tree.propertyParts p)) (fields : Dict Value) :
    x.Does S (fun _ => True) (x.context.properties s fields nodes) (x.other.properties s fields nodes) := by
  have htree : x.other.tree = x.context.tree := rfl
  induction nodes generalizing fields with
  | nil => exact .pure trivial
  | cons property rest ih =>
    have hrest := ih fun other hother => h other (List.mem_cons_of_mem _ hother)
    have hparts := h property List.mem_cons_self
    rw [Tree.propertyParts] at hparts
    rw [Context.properties, Context.properties, htree]
    split
    next hkind =>
      rw [if_pos hkind] at hparts
      exact does_require fun argument hargument => .bind (.eval (hparts.field (by simp) hargument) hs)
        fun source _ => .bind (.checks _) fun fields _ => hrest fields
    next hkind =>
      rw [if_neg hkind] at hparts
      split
      · exact .raisedAt property (does_fail _)
      · simp only
        split
        · exact .raisedAt property (does_fail _)
        · exact .bind (does_propertyKey (fun key hkey => hparts.field (by simp) hkey) hs) fun key _ =>
            does_require fun node hnode =>
              .bind (does_evalNamed (hparts.field (by simp) hnode) hs _) fun value _ => hrest _

theorem does_memberExpression (h : x.AsksAll (x.context.tree.inFields n ["object", "property"])) (hs : S s) :
    x.Does S (fun _ => True) (x.context.memberExpression n s) (x.other.memberExpression n s) := by
  have htree : x.other.tree = x.context.tree := rfl
  refine does_require fun object hobject => .bind (.eval (h.field (by simp) hobject) hs) fun base _ => ?_
  rw [htree]
  split
  · exact .pure trivial
  · exact .bind (does_propertyKey (fun key hkey => h.field (by simp) hkey) hs) fun key _ => .checks _

theorem does_arguments (hs : S s) {nodes : List NodeId}
    (h : ∀ a ∈ nodes, x.AsksAll (x.context.tree.itemParts a)) (acc : Array Value) :
    x.Does S (fun _ => True) (x.context.arguments s acc nodes) (x.other.arguments s acc nodes) := by
  have htree : x.other.tree = x.context.tree := rfl
  induction nodes generalizing acc with
  | nil => exact .pure trivial
  | cons argument rest ih =>
    have hrest := ih fun other hother => h other (List.mem_cons_of_mem _ hother)
    have hparts := h argument List.mem_cons_self
    rw [Tree.itemParts] at hparts
    rw [Context.arguments, Context.arguments, htree]
    split
    next hkind =>
      rw [if_pos hkind] at hparts
      exact .bind (does_spread hparts hs) fun values _ => hrest _
    next hkind =>
      rw [if_neg hkind] at hparts
      exact .bind (.eval (hparts argument (List.mem_singleton_self argument)) hs) fun value _ => hrest _

theorem does_calleeOf (h : x.AsksAll (n :: x.context.tree.placeParts n)) (hs : S s) :
    x.Does S (fun _ => True) (x.context.calleeOf n s) (x.other.calleeOf n s) := by
  have htree : x.other.tree = x.context.tree := rfl
  obtain ⟨hn, hplace⟩ := List.forall_mem_cons.mp h
  rw [Context.calleeOf, Context.calleeOf, htree]
  split
  next hkind =>
    have hparts : x.AsksAll (x.context.tree.inFields n ["object", "property"]) := AsksAll.of_place hplace hkind
    refine does_require fun object hobject => .bind (.eval (hparts.field (by simp) hobject) hs) fun base _ => ?_
    split
    · exact .pure trivial
    · exact .bind (does_propertyKey (fun key hkey => hparts.field (by simp) hkey) hs) fun key _ =>
        .bind (.raisedAt n (.checks _)) fun function _ => .pure trivial
  · exact .bind (.eval hn hs) fun function _ => .pure trivial

theorem does_callExpression
    (hcallee : x.AsksAll ((x.context.tree.inFields n ["callee"]).flatMap fun callee =>
      callee :: x.context.tree.placeParts callee))
    (harguments : x.AsksAll ((x.context.tree.present n "arguments").flatMap x.context.tree.itemParts))
    (hs : S s) :
    x.Does S (fun _ => True) (x.context.callExpression n s) (x.other.callExpression n s) := by
  have htree : x.other.tree = x.context.tree := rfl
  refine does_require fun callee hchild => .bind (does_calleeOf (hcallee.of_field hchild) hs) fun found _ => ?_
  rw [htree]
  split
  · exact .pure trivial
  · split
    · exact .pure trivial
    · exact .bind (does_arguments hs (fun a ha => harguments.of_flatMap ha) #[]) fun args _ => .call _ _ args

theorem does_delete (h : x.AsksAll (n :: x.context.tree.placeParts n)) (hs : S s) :
    x.Does S (fun _ => True) (x.context.delete n s) (x.other.delete n s) := by
  have htree : x.other.tree = x.context.tree := rfl
  obtain ⟨hn, hplace⟩ := List.forall_mem_cons.mp h
  rw [Context.delete, Context.delete, htree]
  split
  next hkind =>
    have hparts : x.AsksAll (x.context.tree.inFields n ["object", "property"]) := AsksAll.of_place hplace hkind
    exact does_require fun object hobject => .bind (.eval (hparts.field (by simp) hobject) hs) fun base _ =>
      .bind (does_propertyKey (fun key hkey => hparts.field (by simp) hkey) hs) fun key _ =>
        .bind (.delete base key) fun gone _ => .pure trivial
  · split
    · exact .pure trivial
    · exact .bind (.eval hn hs) fun _ _ => .pure trivial

theorem does_unaryExpression
    (h : x.AsksAll ((x.context.tree.inFields n ["argument"]).flatMap fun argument =>
      argument :: x.context.tree.placeParts argument)) (hs : S s) :
    x.Does S (fun _ => True) (x.context.unaryExpression n s) (x.other.unaryExpression n s) := by
  refine does_operator fun op => does_require fun argument hargument => ?_
  have hparts := h.of_field hargument
  split
  · exact does_delete hparts hs
  · exact .bind (.eval (hparts argument List.mem_cons_self) hs) fun value _ => .checks _

theorem does_binaryExpression (h : x.AsksAll (x.context.tree.inFields n ["left", "right"])) (hs : S s) :
    x.Does S (fun _ => True) (x.context.binaryExpression n s) (x.other.binaryExpression n s) :=
  does_operator fun _ => does_require fun _ hleft => does_require fun _ hright =>
    .bind (.eval (h.field (by simp) hleft) hs) fun _ _ =>
      .bind (.eval (h.field (by simp) hright) hs) fun _ _ => .checks _

theorem does_logicalExpression (h : x.AsksAll (x.context.tree.inFields n ["left", "right"])) (hs : S s) :
    x.Does S (fun _ => True) (x.context.logicalExpression n s) (x.other.logicalExpression n s) := by
  refine does_operator fun op => does_require fun left hleft => does_require fun right hright =>
    .bind (.eval (h.field (by simp) hleft) hs) fun value _ => ?_
  split
  · exact .pure trivial
  · exact .eval (h.field (by simp) hright) hs
  · exact .abrupt _

theorem does_conditionalExpression
    (h : x.AsksAll (x.context.tree.inFields n ["test", "consequent", "alternate"])) (hs : S s) :
    x.Does S (fun _ => True)
      (x.context.conditionalExpression n s) (x.other.conditionalExpression n s) := by
  refine does_require fun test htest => .bind (.eval (h.field (by simp) htest) hs) fun value _ =>
    does_require fun branch hbranch => .eval (h.field ?_ hbranch) hs
  split <;> simp

/-! ## Assignments -/

theorem does_updateExpression
    (h : x.AsksAll ((x.context.tree.inFields n ["argument"]).flatMap x.context.tree.placeParts)) (hs : S s)
    (hassigns : ∀ argument name, x.context.tree.child? n "argument" = some argument →
      x.context.tree.identifierName? argument = some name → x.assigns s name) : x.Does S (fun _ => True)
      (x.context.updateExpression n s) (x.other.updateExpression n s) := by
  have htree : x.other.tree = x.context.tree := rfl
  refine does_operator fun op => does_require fun argument hargument => ?_
  have hplaces (name : String) := hassigns argument name hargument
  refine .bind (does_place (h.of_field hargument) hplaces hs) fun place hplace =>
    .bind (does_readPlace place) fun old _ => .bind (.reads _) fun new _ =>
      .bind (does_writePlace hplace new) fun _ _ => ?_
  rw [htree]
  split
  · exact .pure trivial
  · exact .reads _

/-- The left side of an assignment may be bound if it is a pattern, and assigned to if it is a name. -/
structure Assigns (x : Site) (s : ScopeId) (left : NodeId) : Prop where
  parts : x.AsksAll (x.context.tree.placeParts left)
  binds : (x.context.tree.is left "ObjectPattern" || x.context.tree.is left "ArrayPattern") = true →
    x.binds left false
  assigns : ∀ name, x.context.tree.identifierName? left = some name → x.assigns s name

theorem does_assign {left right : NodeId} (hleft : x.Assigns s left) (hright : x.asks right) (hs : S s) :
    x.Does S (fun _ => True) (x.context.assign left right s) (x.other.assign left right s) := by
  have htree : x.other.tree = x.context.tree := rfl
  rw [Context.assign, Context.assign, htree]
  split
  next hkind =>
    exact .bind (.eval hright hs) fun value _ =>
      .bind (.bindTo value (hleft.binds hkind) hs .assign) fun _ _ => .pure trivial
  · exact .bind (does_place hleft.parts hleft.assigns hs) fun place hplace =>
      .bind (does_evalNamed hright hs _) fun value _ => .bind (does_writePlace hplace value) fun _ _ =>
        .pure trivial

theorem does_assignBinary {place : Place} (hplace : x.Writable s place) {right : NodeId}
    (hright : x.asks right) (hs : S s) (op : String) (current : Value) : x.Does S (fun _ => True)
      (x.context.assignBinary op place current right s)
      (x.other.assignBinary op place current right s) := by
  rw [Context.assignBinary, Context.assignBinary]
  split
  · exact .abrupt _
  · exact .bind (.eval hright hs) fun operand _ => .bind (.checks _) fun value _ =>
      .bind (does_writePlace hplace value) fun _ _ => .pure trivial

theorem does_assignmentExpression
    (hleft : ∀ left, x.context.tree.child? n "left" = some left → x.Assigns s left)
    (hright : x.AsksAll (x.context.tree.inFields n ["right"])) (hs : S s) : x.Does S (fun _ => True)
      (x.context.assignmentExpression n s) (x.other.assignmentExpression n s) := by
  refine does_operator fun op => does_require fun left hchild => does_require fun right hvalue => ?_
  have hassigns := hleft left hchild
  have hvalue := hright.field (by simp) hvalue
  split
  · exact does_assign hassigns hvalue hs
  · refine .bind (does_place hassigns.parts hassigns.assigns hs) fun place hplace =>
      .bind (does_readPlace place) fun current _ => ?_
    split
    · exact .pure trivial
    · exact .bind (.eval hvalue hs) fun value _ => .bind (does_writePlace hplace value) fun _ _ =>
        .pure trivial
    · exact does_assignBinary hplace hvalue hs op current

/-! ## Statements -/

theorem does_instantiateFunctions (hs : S s) {statements : List NodeId}
    (h : x.DeclaresFunctions statements) : x.Does S (fun _ => True)
      (x.context.instantiateFunctions s statements) (x.other.instantiateFunctions s statements) := by
  have htree : x.other.tree = x.context.tree := rfl
  induction statements with
  | nil => exact .pure trivial
  | cons statement rest ih =>
    have hrest := ih fun d hd => by
      obtain ⟨hmem, htag⟩ := Tree.mem_functionsIn.mp hd
      exact h d (Tree.mem_functionsIn.mpr ⟨List.mem_cons_of_mem _ hmem, htag⟩)
    rw [Context.instantiateFunctions, Context.instantiateFunctions, htree]
    split
    next hfunction =>
      have hdeclares := h statement (Tree.mem_functionsIn.mpr ⟨List.mem_cons_self, hfunction⟩)
      have htag := eq_of_beq hfunction
      split
      next name hname =>
        refine .bind (does_createClosure hs (by simp [htag, Tag.isFunction]) (fun harrow => ?_) none)
          fun closure _ => .bind (.declare (.target hdeclares hs) ?_ closure) fun _ _ => hrest
        · simp [Tree.is, htag] at harrow
        · simp [hname]
      · exact hrest
    · exact hrest

theorem does_evalStatements {key : String} (h : x.AsksAll (x.context.tree.present n key)) (hs : S s)
    (hfunctions : x.DeclaresFunctions (x.context.tree.present n key)) : x.Does S (fun _ => True)
      (x.context.evalStatements n key s) (x.other.evalStatements n key s) :=
  .bind (does_instantiateFunctions hs hfunctions) fun _ _ => does_evalEach h hs .undefined

theorem does_blockStatement (h : x.AsksAll (x.context.tree.present n "body")) (hopens : x.opens n) (hs : S s)
    (hfunctions : x.DeclaresFunctions (x.context.tree.present n "body")) :
    x.Does S (fun _ => True) (x.context.blockStatement n s) (x.other.blockStatement n s) :=
  .opened hopens hs fun _ _ => does_evalStatements h (Or.inr rfl) hfunctions

theorem does_declarator (h : x.AsksAll (x.context.tree.inFields n ["init"])) (hs : S s)
    (hpattern : x.DeclaresPattern n) (isVar : Bool) :
    x.Does S (fun _ => True) (x.context.declarator n isVar s) (x.other.declarator n isVar s) := by
  have htree : x.other.tree = x.context.tree := rfl
  refine does_require fun id hid => ?_
  obtain ⟨hdeclares, hbinds⟩ := hpattern id hid
  rw [htree]
  simp only
  split
  next init hinit =>
    exact .bind (does_evalNamed (h.field (by simp) hinit) hs _) fun value _ =>
      .bindTo value hbinds hs (.declare (.target hdeclares hs))
  · split
    · exact .pure trivial
    · exact .reset (.target hdeclares hs)

theorem does_declarators (hs : S s) (isVar : Bool) {nodes : List NodeId}
    (h : x.AsksAll (nodes.flatMap fun d => x.context.tree.inFields d ["init"]))
    (hpatterns : ∀ d ∈ nodes, x.DeclaresPattern d) :
    x.Does S (fun _ => True) (x.context.declarators isVar s nodes) (x.other.declarators isVar s nodes) := by
  induction nodes with
  | nil => exact .pure trivial
  | cons node rest ih =>
    rw [List.flatMap_cons, asksAll_append] at h
    obtain ⟨hfirst, hrest⟩ := List.forall_mem_cons.mp hpatterns
    exact .bind (does_declarator h.1 hs hfirst isVar) fun _ _ => ih h.2 hrest

theorem does_ifStatement (h : x.AsksAll (x.context.tree.inFields n ["test", "consequent", "alternate"]))
    (hs : S s) : x.Does S (fun _ => True) (x.context.ifStatement n s) (x.other.ifStatement n s) := by
  have htree : x.other.tree = x.context.tree := rfl
  refine does_require fun test htest => .bind (.eval (h.field (by simp) htest) hs) fun value _ => ?_
  split
  · exact does_require fun consequent hconsequent => .eval (h.field (by simp) hconsequent) hs
  · rw [htree]
    split
    next alternate halternate => exact .eval (h.field (by simp) halternate) hs
    · exact .pure trivial

/-- A loop of these parts may be asked for. -/
theorem loops_of_fields {rounds : Loop} {keys : List String} (hloops : ∀ {rounds : Loop},
      rounds.nodes ⊆ x.context.tree.inFields n keys → x.loops rounds)
    (htest : ∀ test ∈ rounds.test, ∃ key ∈ keys, x.context.tree.child? n key = some test)
    (hbody : ∃ key ∈ keys, x.context.tree.child? n key = some rounds.body)
    (hupdate : ∀ update ∈ rounds.update, ∃ key ∈ keys, x.context.tree.child? n key = some update) :
    x.loops rounds := by
  refine hloops fun m hm => Tree.mem_inFields.mpr ?_
  obtain hm | rfl | hm := Loop.mem_nodes.mp hm
  · exact htest m hm
  · exact hbody
  · exact hupdate m hm

theorem does_forStatement (h : x.AsksAll (x.context.tree.inFields n ["init", "test", "body", "update"]))
    (hopens : x.opens n) (hs : S s) (hloops : ∀ {rounds : Loop},
      rounds.nodes ⊆ x.context.tree.inFields n ["init", "test", "body", "update"] → x.loops rounds) :
    x.Does S (fun _ => True) (x.context.forStatement n s) (x.other.forStatement n s) := by
  have htree : x.other.tree = x.context.tree := rfl
  refine .opened hopens hs fun own _ => does_require fun body hbody => ?_
  rw [htree]
  have hrounds : x.loops ⟨x.context.tree.child? n "test", body, x.context.tree.child? n "update"⟩ :=
    loops_of_fields hloops (fun test htest => ⟨"test", by simp, htest⟩) ⟨"body", by simp, hbody⟩
      fun update hupdate => ⟨"update", by simp, hupdate⟩
  split
  next init hinit =>
    exact .bind (.eval (h.field (by simp) hinit) (Or.inr rfl)) fun _ _ => .loop true hrounds (Or.inr rfl)
  · exact .loop true hrounds (Or.inr rfl)

/-- The rounds of `while` and `do`. -/
theorem does_testedLoop (hs : S s) (testFirst : Bool)
    (hloops : ∀ {rounds : Loop}, rounds.nodes ⊆ x.context.tree.inFields n ["test", "body"] → x.loops rounds) :
    x.Does S (fun _ => True)
      (do
        let test ← x.context.require n "test"
        let body ← x.context.require n "body"
        x.context.loop ⟨some test, body, none⟩ s testFirst)
      (do
        let test ← x.other.require n "test"
        let body ← x.other.require n "body"
        x.other.loop ⟨some test, body, none⟩ s testFirst) := by
  refine does_require fun test htest => does_require fun body hbody => .loop testFirst ?_ hs
  refine loops_of_fields hloops ?_ ⟨"body", by simp, hbody⟩ nofun
  rintro _ ⟨⟩
  exact ⟨"test", by simp, htest⟩

theorem does_goesOn (outcome : Except Abrupt Value) :
    x.Does S (fun _ => True) (Context.goesOn outcome) (Context.goesOn outcome) := by
  unfold Context.goesOn
  split
  · exact .pure trivial
  · exact .pure trivial
  · exact .pure trivial
  · exact .abrupt _

theorem does_bodyOnce (hn : x.asks n) (hs : S s) :
    x.Does S (fun _ => True) (x.context.bodyOnce n s) (x.other.bodyOnce n s) :=
  .caught (.eval hn hs) does_goesOn fun _ _ => ⟨rfl, rfl⟩

/-- The left side of `for…in` and `for…of` may be bound: the declarators of a declaration, or a pattern. -/
structure Iterates (x : Site) (left : NodeId) : Prop where
  binds : ¬ x.context.tree.is left "VariableDeclaration" = true → x.binds left false
  declares : x.context.tree.is left "VariableDeclaration" = true →
    ∀ d ∈ x.context.tree.present left "declarations", x.DeclaresPattern d

theorem does_bindRound {left : NodeId} (h : x.Iterates left) (hs : S s) (value : Value) :
    x.Does S (fun _ => True) (x.context.bindRound left value s) (x.other.bindRound left value s) := by
  have htree : x.other.tree = x.context.tree := rfl
  rw [Context.bindRound, Context.bindRound, htree]
  split
  next hdeclaration =>
    split
    next declarator rest hdeclarations =>
      have hmem : declarator ∈ x.context.tree.present left "declarations" := by
        refine Tree.mem_present ?_
        rw [hdeclarations]
        exact List.mem_cons_self
      refine does_require fun id hid => ?_
      obtain ⟨hdeclares, hbinds⟩ := h.declares hdeclaration declarator hmem id hid
      exact .bindTo value hbinds hs (.declare (.target hdeclares hs))
    · exact .raisedAt left (does_fail _)
  next hpattern => exact .bindTo value (h.binds hpattern) hs .assign

theorem does_rounds {left body : NodeId} (hleft : x.Iterates left) (hbody : x.asks body) (hs : S s)
    (values : List Value) :
    x.Does S (fun _ => True) (x.context.rounds left body s values) (x.other.rounds left body s values) := by
  induction values with
  | nil => exact .pure trivial
  | cons value rest ih =>
    refine .bind (does_bindRound hleft hs value) fun _ _ => .bind (does_bodyOnce hbody hs) fun on _ => ?_
    split
    · exact ih
    · exact .pure trivial

theorem does_iteration (h : x.AsksAll (x.context.tree.inFields n ["right", "body"])) (hs : S s)
    (hleft : ∀ left, x.context.tree.child? n "left" = some left → x.Iterates left) (values : List Value) :
    x.Does S (fun _ => True) (x.context.iteration n values s) (x.other.iteration n values s) :=
  does_require fun left hchild => does_require fun _ hbody =>
    does_rounds (hleft left hchild) (h.field (by simp) hbody) hs values

theorem does_instantiateCases (hs : S s) {cases : List NodeId}
    (h : x.DeclaresFunctions (cases.flatMap fun case => x.context.tree.present case "consequent")) :
    x.Does S (fun _ => True) (x.context.instantiateCases s cases) (x.other.instantiateCases s cases) := by
  induction cases with
  | nil => exact .pure trivial
  | cons case rest ih =>
    rw [DeclaresFunctions, Tree.functionsIn, List.flatMap_cons, List.filter_append] at h
    exact .bind (does_instantiateFunctions hs fun d hd => h d (List.mem_append_left _ hd)) fun _ _ =>
      ih fun d hd => h d (List.mem_append_right _ hd)

/-- The cases that are selected are among those that there are. -/
theorem does_selectCase (hs : S s) (discriminant : Value) {all cases : List (Option NodeId)}
    (hcases : cases ⊆ all)
    (h : ∀ case, some case ∈ all → x.AsksAll (x.context.tree.inFields case ["test"])) :
    x.Does S (fun selected => ∀ chosen ∈ selected, chosen ⊆ all)
      (x.context.selectCase discriminant s cases) (x.other.selectCase discriminant s cases) := by
  have htree : x.other.tree = x.context.tree := rfl
  induction cases with
  | nil => exact .pure nofun
  | cons case rest ih =>
    obtain ⟨hfirst, hrest⟩ := List.cons_subset.mp hcases
    rw [Context.selectCase, Context.selectCase, htree]
    split
    next test htest =>
      obtain ⟨node, hcase, hchild⟩ := Option.bind_eq_some_iff.mp htest
      have hasks := (h node (hcase ▸ hfirst)).field (by simp) hchild
      refine .bind (.eval hasks hs) fun value _ => ?_
      split
      · refine .pure ?_
        rintro _ ⟨⟩
        exact hcases
      · exact ih hrest
    · exact ih hrest

theorem does_runCases (hs : S s) {statements : List NodeId} (h : x.AsksAll statements) :
    x.Does S (fun _ => True) (x.context.runCases s statements) (x.other.runCases s statements) := by
  induction statements with
  | nil => exact .pure trivial
  | cons statement rest ih =>
    have hrest := ih fun other hother => h other (List.mem_cons_of_mem _ hother)
    refine .caught (.eval (h statement List.mem_cons_self) hs) (fun outcome => ?_) fun _ _ => ⟨rfl, rfl⟩
    split
    · exact hrest
    · exact .pure trivial
    · exact .abrupt _

/-- Whatever cases are chosen, they are among those that there are. -/
theorem chosen_subset {c : Context} {cases : List (Option NodeId)} {selected : Option (List (Option NodeId))}
    (h : ∀ chosen ∈ selected, chosen ⊆ cases) : selected.getD (c.defaultCase cases) ⊆ cases := by
  cases selected with
  | none => exact (List.dropWhile_suffix _).subset
  | some chosen => exact h chosen rfl

theorem does_switchStatement (hdiscriminant : x.AsksAll (x.context.tree.inFields n ["discriminant"]))
    (htests : x.AsksAll ((x.context.tree.present n "cases").flatMap fun case =>
      x.context.tree.inFields case ["test"]))
    (hstatements : x.AsksAll ((x.context.tree.present n "cases").flatMap fun case =>
      x.context.tree.present case "consequent"))
    (hopens : x.opens n) (hs : S s) (hfunctions : x.DeclaresFunctions
      ((x.context.tree.present n "cases").flatMap fun case => x.context.tree.present case "consequent")) :
    x.Does S (fun _ => True) (x.context.switchStatement n s) (x.other.switchStatement n s) := by
  have htree : x.other.tree = x.context.tree := rfl
  refine does_require fun node hnode => .bind (.eval (hdiscriminant.field (by simp) hnode) hs)
    fun discriminant _ => .opened hopens hs fun own _ => ?_
  rw [htree]
  refine .bind (does_instantiateCases (Or.inr rfl) hfunctions) fun _ _ =>
    .bind (does_selectCase (Or.inr rfl) discriminant (List.Subset.refl _) fun case hcase =>
      htests.of_flatMap (Tree.mem_present hcase)) fun selected hselected =>
        does_runCases (Or.inr rfl) fun statement hstatement => ?_
  obtain ⟨case, hcase, hin⟩ := List.mem_flatMap.mp hstatement
  obtain ⟨item, hitem, rfl⟩ := List.mem_filterMap.mp hcase
  exact hstatements.of_flatMap (Tree.mem_present (chosen_subset hselected hitem)) statement hin

theorem does_unlabelled (exit : Abrupt) :
    x.Does S (fun _ => True) (x.context.unlabelled n exit) (x.other.unlabelled n exit) := by
  have hsame : x.other.unlabelled n exit = x.context.unlabelled n exit := rfl
  rw [hsame, Context.unlabelled]
  split
  · exact .abrupt _
  · exact .abrupt _

theorem does_returnStatement (h : x.AsksAll (x.context.tree.inFields n ["argument"])) (hs : S s) :
    x.Does S (fun _ => True) (x.context.returnStatement n s) (x.other.returnStatement n s) := by
  have htree : x.other.tree = x.context.tree := rfl
  rw [Context.returnStatement, Context.returnStatement, htree]
  split
  next argument hargument => exact .bind (.eval (h.field (by simp) hargument) hs) fun value _ => .abrupt _
  · exact .abrupt _

theorem does_throwStatement (h : x.AsksAll (x.context.tree.inFields n ["argument"])) (hs : S s) :
    x.Does S (fun _ => True) (x.context.throwStatement n s) (x.other.throwStatement n s) :=
  does_require fun _ hargument => .bind (.eval (h.field (by simp) hargument) hs) fun _ _ => .abrupt _

/-- The handler of a `try` statement may open its body and declare there. -/
structure Handles (x : Site) (clause : NodeId) : Prop where
  statements : ∀ {body}, x.context.tree.child? clause "body" = some body →
    x.AsksAll (x.context.tree.present body "body")
  opens : ∀ {body}, x.context.tree.child? clause "body" = some body → x.opens body
  functions : ∀ {body}, x.context.tree.child? clause "body" = some body →
    x.DeclaresFunctions (x.context.tree.present body "body")
  catches : ∀ {body param}, x.context.tree.child? clause "body" = some body →
    x.context.tree.child? clause "param" = some param →
      x.catches body (x.context.tree.bindingNames param) ∧ x.binds param true

theorem does_catchClause {clause : NodeId} (h : x.Handles clause) (hs : S s) (thrown : Value) :
    x.Does S (fun _ => True)
      (x.context.catchClause clause thrown s) (x.other.catchClause clause thrown s) := by
  have htree : x.other.tree = x.context.tree := rfl
  refine does_require fun body hbody => .opened (h.opens hbody) hs fun own hown => ?_
  rw [htree]
  split
  next param hparam =>
    obtain ⟨hcatches, hbinds⟩ := h.catches hbody hparam
    exact .bind (.bindTo thrown hbinds (Or.inr rfl)
      (.declare (.block hcatches (Or.inr rfl) hown))) fun _ _ =>
        does_evalStatements (h.statements hbody) (Or.inr rfl) (h.functions hbody)
  · exact does_evalStatements (h.statements hbody) (Or.inr rfl) (h.functions hbody)

theorem does_guardedBlock {block : NodeId} (hblock : x.asks block) (hs : S s)
    (hhandles : ∀ clause, x.context.tree.child? n "handler" = some clause → x.Handles clause) :
    x.Does S (fun _ => True) (x.context.guardedBlock n block s) (x.other.guardedBlock n block s) := by
  have htree : x.other.tree = x.context.tree := rfl
  refine .caught (.eval hblock hs) (fun outcome => ?_) fun _ _ => ⟨rfl, rfl⟩
  rw [htree]
  split
  next thrown handler hhandler => exact does_catchClause (hhandles handler hhandler) hs thrown
  · exact .pure trivial
  · exact .abrupt _

theorem does_resume (outcome : Except Abrupt Value) : x.Does S (fun _ => True)
    (Context.tryStatement.resume outcome) (Context.tryStatement.resume outcome) := by
  cases outcome with
  | ok value => exact .pure trivial
  | error e => exact .abrupt e

theorem does_tryStatement (h : x.AsksAll (x.context.tree.inFields n ["block", "finalizer"])) (hs : S s)
    (hhandles : ∀ clause, x.context.tree.child? n "handler" = some clause → x.Handles clause)
    (hrecovers : (x.context.tree.child? n "finalizer").isSome → x.recovers) :
    x.Does S (fun _ => True) (x.context.tryStatement n s) (x.other.tryStatement n s) := by
  have htree : x.other.tree = x.context.tree := rfl
  refine does_require fun block hblock =>
    .caught (does_guardedBlock (h.field (by simp) hblock) hs hhandles) (fun outcome => ?_) fun hstops e => ?_
  · rw [htree]
    split
    next finalizer hfinalizer =>
      exact .bind (.eval (h.field (by simp) hfinalizer) hs) fun _ _ => does_resume outcome
    · exact does_resume outcome
  · have hnone : x.context.tree.child? n "finalizer" = none :=
      Option.not_isSome_iff_eq_none.mp fun hsome => hstops (hrecovers hsome)
    rw [htree, hnone]
    exact ⟨rfl, rfl⟩

/-! ## What the site of a node allows -/

section Nodes

variable {c : Context} {limits : Limits} {links : Links} {d left clause : NodeId}

theorem loops_ofNode (htag : c.tree.tag n ∈ Tag.unboundedLoops) {nodes : List NodeId}
    (hall : c.tree.evaluated n = nodes) {rounds : Loop} (hrounds : rounds.nodes ⊆ nodes) :
    (ofNode c limits links n s).loops rounds := ⟨htag, hall ▸ hrounds⟩

theorem declaresFunctions_ofNode {statements : List NodeId} (hall : c.tree.listed n = statements) :
    (ofNode c limits links n s).DeclaresFunctions statements := fun _ hd => .function (hall ▸ hd)

theorem declaresPattern_ofNode (hd : d ∈ c.tree.declarators n) :
    (ofNode c limits links n s).DeclaresPattern d := fun _ hid => ⟨.declarator hd hid, .declarator hd hid⟩

theorem opens_ofNode (htag : c.tree.tag n = "BlockStatement" ∨ c.tree.tag n = "ForStatement" ∨
    c.tree.tag n = "SwitchStatement") : (ofNode c limits links n s).opens n := by
  change n ∈ c.tree.openedBlocks n
  obtain htag | htag | htag := htag <;> simp [Tree.openedBlocks, htag]

/-- What an assignment may do with its left side. -/
theorem assigns_ofNode (htag : c.tree.tag n = "AssignmentExpression")
    (hleft : c.tree.child? n "left" = some left) : (ofNode c limits links n s).Assigns s left where
  parts m hm := by
    rw [ofNode_context] at hm
    change m ∈ c.tree.evaluated n
    have hfield : left ∈ c.tree.inFields n ["left"] := Tree.mem_inFields.mpr ⟨"left", by simp, hleft⟩
    simp only [Tree.evaluated, htag]
    exact List.mem_append_left _ (List.mem_flatMap.mpr ⟨left, hfield, hm⟩)
  binds hkind := .assigned htag hleft hkind
  assigns name hname := by
    have hassignee : c.tree.assignee? n = some left := by
      simpa [Tree.assignee?, Tree.is, htag] using hleft
    exact ⟨rfl, by rw [hassignee]; exact hname⟩

/-- `++` and `--` assign to the name that they are applied to. -/
theorem assigns_argument_ofNode (htag : c.tree.tag n = "UpdateExpression") {argument : NodeId}
    (hargument : c.tree.child? n "argument" = some argument) {name : String}
    (hname : c.tree.identifierName? argument = some name) : (ofNode c limits links n s).assigns s name := by
  have hassignee : c.tree.assignee? n = some argument := by
    simpa [Tree.assignee?, Tree.is, htag] using hargument
  exact ⟨rfl, by rw [hassignee]; exact hname⟩

/-- What a `for…in` or `for…of` may do with its left side. -/
theorem iterates_ofNode (htag : c.tree.tag n = "ForInStatement" ∨ c.tree.tag n = "ForOfStatement")
    (hleft : c.tree.child? n "left" = some left) : (ofNode c limits links n s).Iterates left where
  binds hkind := .iterated htag hleft hkind
  declares hdeclaration d hd := by
    have hhead : d ∈ c.tree.headDeclarators n := Tree.mem_headDeclarators.mpr ⟨left, hleft, hdeclaration, hd⟩
    refine declaresPattern_ofNode ?_
    cases htag with
    | inl htag => simpa only [Tree.declarators, htag] using hhead
    | inr htag => simpa only [Tree.declarators, htag] using hhead

/-- What a `try` statement may do with its handler. -/
theorem handles_ofNode (htag : c.tree.tag n = "TryStatement")
    (hclause : c.tree.child? n "handler" = some clause) : (ofNode c limits links n s).Handles clause := by
  have hlisted {body : NodeId} (hbody : c.tree.child? clause "body" = some body) :
      c.tree.listed n = c.tree.present body "body" := by
    simp [Tree.listed, htag, Tree.handlerBody?, hclause, hbody]
  refine ⟨fun hbody m hm => ?_, fun {body} hbody => ?_, fun hbody => declaresFunctions_ofNode (hlisted hbody),
    fun {body param} hbody hparam => ⟨⟨htag, clause, param, hclause, hbody, hparam, rfl⟩, ?_⟩⟩
  · rw [ofNode_context, ← hlisted hbody] at hm
    change m ∈ c.tree.evaluated n
    simp [Tree.evaluated, htag, hm]
  · rw [ofNode_context] at hbody
    change body ∈ c.tree.openedBlocks n
    simp [Tree.openedBlocks, htag, Tree.handlerBody?, hclause, hbody]
  · exact .parameter htag hclause hparam

end Nodes

end ScriptCore.Site

namespace ScriptCore

open Site

/-- **What the default rules do.** Every one keeps to what the site of its node allows. -/
theorem Rule.does_meaning (host : Host) {rule : Rule} {c : Context} {n : NodeId} {s : ScopeId}
    (hrule : RuleTable.default.get? (c.tree.tag n) = some rule) (limits : Limits) (links : Links)
    {S : ScopeId → Prop} (hs : S s) :
    (ofNode c limits links n s).Does S (fun _ => True) (rule.meaning host c n s)
      (rule.meaning host { c with limits := limits, links := links } n s) := by
  have hmem := Dict.mem_of_get?_ofList hrule
  have hasks {nodes : List NodeId} (hall : c.tree.evaluated n = nodes) :
      (ofNode c limits links n s).AsksAll nodes := fun m hm => by
    rw [← hall] at hm
    exact hm
  cases rule with
  | identifier => exact does_identifier
  | literal => exact does_literal (s := s)
  | thisExpression => exact .reads _
  | templateLiteral =>
    have hkind : c.tree.tag n = "TemplateLiteral" := by simpa using hmem
    have hall := hasks (by simp only [Tree.evaluated, hkind]; rfl)
    exact does_templateParts hs "" _ fun e he => hall e (Tree.mem_present he)
  | arrayExpression =>
    have hkind : c.tree.tag n = "ArrayExpression" := by simpa using hmem
    have hall := hasks (by simp only [Tree.evaluated, hkind]; rfl)
    exact .bind (does_elements hs (fun e he => hall.of_flatMap (Tree.mem_present he)) #[])
      fun items _ => .newArray items
  | objectExpression =>
    have hkind : c.tree.tag n = "ObjectExpression" := by simpa using hmem
    have hall := hasks (by simp only [Tree.evaluated, hkind]; rfl)
    exact .bind (does_properties hs (fun p hp => hall.of_flatMap hp) ∅) fun fields _ =>
      .newObject fun _ => fields
  | functionExpression =>
    have hfunction : Tag.isFunction (c.tree.tag n) = true := by
      have hkinds : c.tree.tag n = "FunctionExpression" ∨ c.tree.tag n = "ArrowFunctionExpression" := by
        simpa using hmem
      cases hkinds with
      | inl hkind => rw [hkind]; rfl
      | inr hkind => rw [hkind]; rfl
    have harrows : (ofNode c limits links n s).arrows n s := ⟨rfl, rfl⟩
    exact does_createClosure hs hfunction (fun _ => harrows) none
  | memberExpression =>
    have hkind : c.tree.tag n = "MemberExpression" := by simpa using hmem
    have hall := hasks (by simp only [Tree.evaluated, hkind]; rfl)
    exact does_memberExpression (hall.of_place (by simp [Tree.is, hkind])) hs
  | chainExpression =>
    have hkind : c.tree.tag n = "ChainExpression" := by simpa using hmem
    have hall := hasks (by simp only [Tree.evaluated, hkind]; rfl)
    exact does_require fun e he => .eval (hall.field (by simp) he) hs
  | callExpression =>
    have hkind : c.tree.tag n = "CallExpression" := by simpa using hmem
    have hall := hasks (by simp only [Tree.evaluated, hkind]; rfl)
    obtain ⟨hcallee, harguments⟩ := asksAll_append.mp hall
    exact does_callExpression hcallee harguments hs
  | unaryExpression =>
    have hkind : c.tree.tag n = "UnaryExpression" := by simpa using hmem
    exact does_unaryExpression (hasks (by simp only [Tree.evaluated, hkind]; rfl)) hs
  | updateExpression =>
    have hkind : c.tree.tag n = "UpdateExpression" := by simpa using hmem
    exact does_updateExpression (hasks (by simp only [Tree.evaluated, hkind]; rfl)) hs
      fun argument name hargument hname => assigns_argument_ofNode hkind hargument hname
  | binaryExpression =>
    have hkind : c.tree.tag n = "BinaryExpression" := by simpa using hmem
    exact does_binaryExpression (hasks (by simp only [Tree.evaluated, hkind]; rfl)) hs
  | logicalExpression =>
    have hkind : c.tree.tag n = "LogicalExpression" := by simpa using hmem
    exact does_logicalExpression (hasks (by simp only [Tree.evaluated, hkind]; rfl)) hs
  | assignmentExpression =>
    have hkind : c.tree.tag n = "AssignmentExpression" := by simpa using hmem
    have hall := hasks (by simp only [Tree.evaluated, hkind]; rfl)
    exact does_assignmentExpression (fun left hleft => assigns_ofNode hkind hleft)
      (asksAll_append.mp hall).2 hs
  | conditionalExpression =>
    have hkind : c.tree.tag n = "ConditionalExpression" := by simpa using hmem
    exact does_conditionalExpression (hasks (by simp only [Tree.evaluated, hkind]; rfl)) hs
  | sequenceExpression =>
    have hkind : c.tree.tag n = "SequenceExpression" := by simpa using hmem
    exact does_evalEach (hasks (by simp only [Tree.evaluated, hkind])) hs .undefined
  | program =>
    have hkind : c.tree.tag n = "Program" := by simpa using hmem
    exact does_evalStatements (hasks (by simp [Tree.evaluated, Tree.listed, hkind])) hs
      (declaresFunctions_ofNode (by simp [Tree.listed, hkind]))
  | blockStatement =>
    have hkind : c.tree.tag n = "BlockStatement" := by simpa using hmem
    exact does_blockStatement (hasks (by simp [Tree.evaluated, Tree.listed, hkind])) (opens_ofNode (Or.inl hkind)) hs
      (declaresFunctions_ofNode (by simp [Tree.listed, hkind]))
  | expressionStatement =>
    have hkind : c.tree.tag n = "ExpressionStatement" := by simpa using hmem
    have hall := hasks (by simp only [Tree.evaluated, hkind]; rfl)
    exact does_require fun e he => .eval (hall.field (by simp) he) hs
  | emptyStatement => exact .pure trivial
  | variableDeclaration =>
    have hkind : c.tree.tag n = "VariableDeclaration" := by simpa using hmem
    refine does_declarators hs _ (hasks (by simp only [Tree.evaluated, hkind]; rfl)) fun d hd =>
      declaresPattern_ofNode ?_
    simpa only [Tree.declarators, hkind] using hd
  | ifStatement =>
    have hkind : c.tree.tag n = "IfStatement" := by simpa using hmem
    exact does_ifStatement (hasks (by simp only [Tree.evaluated, hkind]; rfl)) hs
  | forStatement =>
    have hkind : c.tree.tag n = "ForStatement" := by simpa using hmem
    have hall : c.tree.evaluated n = c.tree.inFields n ["init", "test", "body", "update"] := by
      simp only [Tree.evaluated, hkind]
    exact does_forStatement (hasks hall) (opens_ofNode (Or.inr (Or.inl hkind))) hs
      (loops_ofNode (by rw [hkind]; decide) hall)
  | forInStatement =>
    have hkind : c.tree.tag n = "ForInStatement" := by simpa using hmem
    have hall : (ofNode c limits links n s).AsksAll (c.tree.inFields n ["right", "body"]) :=
      hasks (by simp only [Tree.evaluated, hkind])
    exact does_require fun right hright => .bind (.eval (hall.field (by simp) hright) hs)
      fun subject _ => .bind (.reads _) fun keys _ =>
        does_iteration hall hs (fun left hleft => iterates_ofNode (Or.inl hkind) hleft) _
  | forOfStatement =>
    have hkind : c.tree.tag n = "ForOfStatement" := by simpa using hmem
    have hall : (ofNode c limits links n s).AsksAll (c.tree.inFields n ["right", "body"]) :=
      hasks (by simp only [Tree.evaluated, hkind])
    exact does_require fun right hright => .bind (.eval (hall.field (by simp) hright) hs)
      fun subject _ => .bind (.raisedAt right (.checks _)) fun values _ =>
        does_iteration hall hs (fun left hleft => iterates_ofNode (Or.inr hkind) hleft) values
  | whileStatement =>
    have hkind : c.tree.tag n = "WhileStatement" := by simpa using hmem
    exact does_testedLoop hs true (loops_ofNode (by rw [hkind]; decide) (by simp only [Tree.evaluated, hkind]; rfl))
  | doWhileStatement =>
    have hkind : c.tree.tag n = "DoWhileStatement" := by simpa using hmem
    exact does_testedLoop hs false (loops_ofNode (by rw [hkind]; decide) (by simp only [Tree.evaluated, hkind]; rfl))
  | switchStatement =>
    have hkind : c.tree.tag n = "SwitchStatement" := by simpa using hmem
    have hall := hasks (by simp only [Tree.evaluated, Tree.listed, hkind]; rfl)
    obtain ⟨hhead, hstatements⟩ := asksAll_append.mp hall
    obtain ⟨hdiscriminant, htests⟩ := asksAll_append.mp hhead
    exact does_switchStatement hdiscriminant htests hstatements (opens_ofNode (Or.inr (Or.inr hkind))) hs
      (declaresFunctions_ofNode (by simp [Tree.listed, hkind]))
  | breakStatement => exact does_unlabelled _
  | continueStatement => exact does_unlabelled _
  | returnStatement =>
    have hkind : c.tree.tag n = "ReturnStatement" := by simpa using hmem
    exact does_returnStatement (hasks (by simp only [Tree.evaluated, hkind]; rfl)) hs
  | throwStatement =>
    have hkind : c.tree.tag n = "ThrowStatement" := by simpa using hmem
    exact does_throwStatement (hasks (by simp only [Tree.evaluated, hkind]; rfl)) hs
  | tryStatement =>
    have hkind : c.tree.tag n = "TryStatement" := by simpa using hmem
    have hall := hasks (by simp only [Tree.evaluated, hkind]; rfl)
    exact does_tryStatement (asksAll_append.mp hall).1 hs
      (fun clause hclause => handles_ofNode hkind hclause) fun hfinalizer => ⟨hkind, hfinalizer⟩
  | host name => simp at hmem

end ScriptCore

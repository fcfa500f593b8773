import Mathlib.Data.Finset.Dedup
import Mathlib.Data.Finset.Card
import Mathlib.Data.List.Find
import ScriptCore.Proofs.Scope.Ancestry
import ScriptCore.Proofs.Scope.Shape

/-!
# Lexical lookup on ordered maps

A scope and its ancestors are a list of ordered maps, the innermost first (`ScopeGraph.layers`). On that
list a name means the first map that has it, and everything that is done to cells along the chain is done
to the maps alone: `CellUse.serve` works on a scope graph, `LayerUse.serve` on the list, and from equal
maps they give equal answers and come to equal maps (`Mirrors.serve`).
-/
namespace ScriptCore

/-- The cells of a scope as an ordered map. -/
structure Layer where
  scope : ScopeId
  cells : List (String × Value)

namespace Layer

def owns (name : String) (l : Layer) : Bool := (lookupEntry name l.cells).isSome

/-- Keep the scope and change the map. -/
def map (f : List (String × Value) → List (String × Value)) (l : Layer) : Layer :=
  { l with cells := f l.cells }

end Layer

/-- Ordered maps, the innermost first. -/
abbrev Layers := List Layer

namespace Layers

variable (ls : Layers)

/-- The maps in sight from one of the scopes: its own and those further out. -/
def seenFrom (s : ScopeId) : Layers := ls.dropWhile fun l => l.scope != s

/-- The maps that are not in sight from one of the scopes, as they lie further in. -/
def within (s : ScopeId) : Layers := ls.takeWhile fun l => l.scope != s

/-- The first map in sight that has the name. -/
def owner? (s : ScopeId) (name : String) : Option Layer := (ls.seenFrom s).find? (Layer.owns name)

/-- The scope of that map, with the value under the name. -/
def resolve? (s : ScopeId) (name : String) : Option (ScopeId × Value) :=
  (ls.owner? s name).bind fun l => (lookupEntry name l.cells).map fun value => (l.scope, value)

/-- The value under a name of one of the scopes itself. -/
def getOwn? (s : ScopeId) (name : String) : Option Value :=
  (ls.find? fun l => l.scope == s).bind fun l => lookupEntry name l.cells

/-- Change the map of one scope. -/
def change (s : ScopeId) (f : List (String × Value) → List (String × Value)) : Layers :=
  List.map (fun l => if l.scope = s then l.map f else l) ls

/-- All names in sight, map by map. -/
def names (s : ScopeId) : List String := (ls.seenFrom s).flatMap fun l => l.cells.map Prod.fst

end Layers

/-! ## What is done to cells -/

/-- What is done to the cells of a chain, seen from one of its scopes or through a reference. -/
inductive CellRequest
  | declare (s : ScopeId) (name : String) (value : Option Value)
  | set (s : ScopeId) (name : String) (value : Value)
  | removeOwn (s : ScopeId) (name : String)
  | removeNearest (s : ScopeId) (name : String)
  | removeAll (s : ScopeId) (name : String)
  /-- look a name up, and keep a reference to its cell -/
  | resolve (s : ScopeId) (name : String)
  /-- write through the reference of the given number -/
  | setReference (number : Nat) (value : Value)

namespace CellRequest

/-- The scope from which a request is made. -/
def scope? : CellRequest → Option ScopeId
  | .declare s _ _ | .set s _ _ | .removeOwn s _ | .removeNearest s _ | .removeAll s _ | .resolve s _ =>
    some s
  | .setReference _ _ => none

/-- Whether a request is made from a scope of the given chain. -/
def On (chain : List ScopeId) (r : CellRequest) : Prop := ∀ s, r.scope? = some s → s ∈ chain

end CellRequest

inductive CellAnswer
  | stored (value : Value)
  | removed (found : Bool)
  | count (n : Nat)
  | resolved (cell : Option (ScopeId × Value))
  /-- there is no reference of that number -/
  | noReference

/-- A scope graph with references to its cells. -/
structure CellUse where
  graph : ScopeGraph
  references : List (ScopeId × String) := []

/-- Ordered maps with references to their cells. -/
structure LayerUse where
  layers : Layers
  references : List (ScopeId × String) := []

/-- Serve a request on the scope graph. -/
def CellUse.serve (u : CellUse) : CellRequest → CellAnswer × CellUse
  | .declare s name value =>
    let value := value.getD .undefined
    (.stored value, { u with graph := u.graph.declare s name value })
  | .set s name value => (.stored value, { u with graph := u.graph.set s name value })
  | .removeOwn s name =>
    let (found, graph) := u.graph.removeOwn s name
    (.removed found, { u with graph })
  | .removeNearest s name =>
    let (found, graph) := u.graph.removeNearest s name
    (.removed found, { u with graph })
  | .removeAll s name =>
    let (n, graph) := u.graph.removeAll s name
    (.count n, { u with graph })
  | .resolve s name =>
    match u.graph.resolve? s name with
    | some (owner, value) =>
      (.resolved (some (owner, value)), { u with references := u.references ++ [(owner, name)] })
    | none => (.resolved none, u)
  | .setReference number value =>
    match u.references[number]? with
    | some (owner, name) => (.stored value, { u with graph := u.graph.declare owner name value })
    | none => (.noReference, u)

/-- Serve a request on the ordered maps. -/
def LayerUse.serve (u : LayerUse) : CellRequest → CellAnswer × LayerUse
  | .declare s name value =>
    let value := value.getD .undefined
    (.stored value, { u with layers := u.layers.change s (insertEntry name value) })
  | .set s name value =>
    -- the cell of the first map that has the name, else a new one here
    let owner := ((u.layers.owner? s name).map Layer.scope).getD s
    (.stored value, { u with layers := u.layers.change owner (insertEntry name value) })
  | .removeOwn s name =>
    (.removed (u.layers.getOwn? s name).isSome,
      { u with layers := u.layers.change s (eraseEntry name) })
  | .removeNearest s name =>
    match u.layers.owner? s name with
    | some l => (.removed true, { u with layers := u.layers.change l.scope (eraseEntry name) })
    | none => (.removed false, u)
  | .removeAll s name =>
    (.count ((u.layers.seenFrom s).countP (Layer.owns name)),
      { u with layers := u.layers.within s ++ (u.layers.seenFrom s).map (Layer.map (eraseEntry name)) })
  | .resolve s name =>
    match u.layers.resolve? s name with
    | some (owner, value) =>
      (.resolved (some (owner, value)), { u with references := u.references ++ [(owner, name)] })
    | none => (.resolved none, u)
  | .setReference number value =>
    match u.references[number]? with
    | some (owner, name) =>
      (.stored value, { u with layers := u.layers.change owner (insertEntry name value) })
    | none => (.noReference, u)

/-- Serve requests one after the other. -/
def CellUse.serveAll (u : CellUse) : List CellRequest → List CellAnswer × CellUse
  | [] => ([], u)
  | r :: rest =>
    let (answer, u) := u.serve r
    let (answers, u) := u.serveAll rest
    (answer :: answers, u)

def LayerUse.serveAll (u : LayerUse) : List CellRequest → List CellAnswer × LayerUse
  | [] => ([], u)
  | r :: rest =>
    let (answer, u) := u.serve r
    let (answers, u) := u.serveAll rest
    (answer :: answers, u)

namespace ScopeGraph

variable {g g' g₁ g₂ g₃ : ScopeGraph} {chain : List ScopeId}

/-- The ordered map of a scope. -/
def layer (g : ScopeGraph) (s : ScopeId) : Layer := ⟨s, (g.get s).cells.entries⟩

/-- The ordered maps of a chain of scopes. -/
def layers (g : ScopeGraph) (chain : List ScopeId) : Layers := chain.map g.layer

/-- Two graphs that differ in the cells of some scopes at most. -/
structure SameBeyond (chain : List ScopeId) (g g' : ScopeGraph) : Prop where
  size_eq : g'.size = g.size
  rest : ∀ s, g'.get s = { g.get s with cells := (g'.get s).cells }
  off : ∀ s ∉ chain, g'.get s = g.get s

namespace SameBeyond

theorem refl (g : ScopeGraph) : g.SameBeyond chain g := ⟨rfl, fun _ => rfl, fun _ _ => rfl⟩

theorem trans (h : g₁.SameBeyond chain g₂) (h' : g₂.SameBeyond chain g₃) : g₁.SameBeyond chain g₃ where
  size_eq := h'.size_eq.trans h.size_eq
  rest s := by rw [h'.rest s, h.rest s]
  off s hs := (h'.off s hs).trans (h.off s hs)

theorem parent?_eq (h : g.SameBeyond chain g') : g'.parent? = g.parent? := by
  funext s
  rw [parent?, h.rest s, parent?]

theorem rooted (h : g.SameBeyond chain g') (hg : g.Rooted) : g'.Rooted := by
  have hlinks : g'.IsParent = g.IsParent := by
    funext p s
    rw [IsParent, h.parent?_eq, IsParent]
  exact ⟨fun s p hp => h.size_eq ▸ hg.parent_lt s p (hlinks ▸ hp), hlinks ▸ hg.ends⟩

theorem ancestors_eq (h : g.SameBeyond chain g') : g'.ancestors = g.ancestors := by
  have hwithin : ∀ fuel s, g'.ancestorsWithin fuel s = g.ancestorsWithin fuel s := by
    intro fuel
    induction fuel with
    | zero => exact fun _ => rfl
    | succ fuel ih =>
      intro s
      rw [ancestorsWithin, ancestorsWithin, h.parent?_eq]
      cases g.parent? s with
      | none => rfl
      | some p => exact congrArg (s :: ·) (ih p)
  funext s
  rw [ancestors, h.size_eq, hwithin, ancestors]

/-- Changing the cells of one scope. -/
theorem modify (g : ScopeGraph) {s : ScopeId} (hs : s ∈ chain) (f : Dict Value → Dict Value) :
    g.SameBeyond chain (g.modify s fun scope => { scope with cells := f scope.cells }) where
  size_eq := size_modify _ _ _
  rest t := by
    rw [get_modify]
    split <;> rfl
  off t ht := by
    rw [get_modify, if_neg]
    rintro ⟨rfl, -⟩
    exact ht hs

end SameBeyond

/-! ## The chain of a scope -/

/-- The ancestors of an ancestor are those from there on. -/
theorem Rooted.ancestors_of_mem (hg : g.Rooted) {s a : ScopeId} (hs : s < g.size)
    (ha : a ∈ g.ancestors s) : g.ancestors a = (g.ancestors s).dropWhile (· != a) := by
  induction s using hg.ends.induction with
  | _ s ih =>
    by_cases has : a = s
    · rw [has]
      conv_rhs => rw [hg.ancestors_eq hs]
      rw [List.dropWhile_cons_of_neg (by simp), ← hg.ancestors_eq hs]
    · rw [hg.ancestors_eq hs] at ha ⊢
      rw [List.dropWhile_cons_of_pos (by simpa using fun h : s = a => has h.symm)]
      cases hp : g.parent? s with
      | none => simp [hp, has] at ha
      | some p =>
        rw [hp] at ha
        exact ih p hp (hg.parent_lt s p hp) (by simpa [has] using ha)

theorem Rooted.nodup_ancestors (hg : g.Rooted) (s : ScopeId) : (g.ancestors s).Nodup :=
  hg.nodup_ancestorsWithin g.size s

theorem Rooted.lt_of_mem_ancestors (hg : g.Rooted) {s a : ScopeId} (hs : s < g.size)
    (ha : a ∈ g.ancestors s) : a < g.size :=
  hg.lt_of_chain ((hg.mem_ancestors_iff hs).mp ha) hs

/-- From one of the scopes of a chain, the maps of its own chain are in sight. -/
theorem Rooted.seenFrom_layers (hg : g.Rooted) {s a : ScopeId} (hs : s < g.size)
    (ha : a ∈ g.ancestors s) :
    (g.layers (g.ancestors s)).seenFrom a = g.layers (g.ancestors a) := by
  rw [Layers.seenFrom, layers, List.dropWhile_map, hg.ancestors_of_mem hs ha]
  rfl

/-! ## Lookups -/

theorem lookup_layer (g : ScopeGraph) (s : ScopeId) (name : String) :
    lookupEntry name (g.layer s).cells = g.getOwn? s name := by
  rw [layer, getOwn?, Dict.get?_eq]

theorem owns_layer (g : ScopeGraph) (s : ScopeId) (name : String) :
    (g.layer s).owns name = g.hasOwn s name := by
  rw [Layer.owns, lookup_layer]
  rfl

/-- The first of some scopes with a cell of the name. -/
def firstIn (g : ScopeGraph) (name : String) (scopes : List ScopeId) : Option (ScopeId × Value) :=
  (scopes.find? fun a => g.hasOwn a name).bind fun a => (g.getOwn? a name).map fun value => (a, value)

/-- A lookup finds the first scope of the chain with a cell of the name. -/
theorem resolve?_eq (g : ScopeGraph) (s : ScopeId) (name : String) :
    g.resolve? s name = g.firstIn name (g.ancestors s) := by
  have hwithin : ∀ fuel s, g.resolveWithin name fuel s = g.firstIn name (g.ancestorsWithin fuel s) := by
    intro fuel
    induction fuel with
    | zero => exact fun _ => rfl
    | succ fuel ih =>
      intro s
      rw [resolveWithin, ancestorsWithin, firstIn, List.find?_cons, hasOwn, Dict.contains]
      cases hcell : (g.get s).cells.get? name with
      | some value => simp [getOwn?, hcell]
      | none =>
        rw [parent?]
        cases (g.get s).parent with
        | none => rfl
        | some p => exact ih p
  exact hwithin g.size s

/-- Scopes that do not own the name are passed over. -/
theorem firstIn_append_of_not {name : String} {inner : List ScopeId}
    (h : ∀ t ∈ inner, g.hasOwn t name = false) (outer : List ScopeId) :
    g.firstIn name (inner ++ outer) = g.firstIn name outer := by
  have hnone : inner.find? (fun t => g.hasOwn t name) = none :=
    List.find?_eq_none.mpr fun t ht => Bool.eq_false_iff.mp (h t ht)
  rw [firstIn, List.find?_append, hnone, Option.none_or, firstIn]

theorem firstIn_congr {scopes : List ScopeId} (h : ∀ t ∈ scopes, g'.get t = g.get t) (name : String) :
    g'.firstIn name scopes = g.firstIn name scopes := by
  have hfind : scopes.find? (fun t => g'.hasOwn t name) = scopes.find? fun t => g.hasOwn t name :=
    List.find?_congr fun t ht => by rw [hasOwn, h t ht, hasOwn]
  rw [firstIn, firstIn, hfind]
  cases ht : scopes.find? fun t => g.hasOwn t name with
  | none => rfl
  | some t => rw [Option.bind_some, Option.bind_some, getOwn?, h t (List.mem_of_find?_eq_some ht), getOwn?]

variable (hg : g.Rooted) {s a : ScopeId} (hs : s < g.size) (ha : a ∈ g.ancestors s)

include hg hs ha in
theorem Rooted.owner?_layers (name : String) : (g.layers (g.ancestors s)).owner? a name =
    ((g.ancestors a).find? fun o => g.hasOwn o name).map g.layer := by
  rw [Layers.owner?, hg.seenFrom_layers hs ha, layers, List.find?_map]
  congr 2
  funext o
  exact g.owns_layer o name

include hg hs ha in
/-- Along a chain a lookup in the graph is a lookup in its maps. -/
theorem Rooted.resolve?_layers (name : String) :
    (g.layers (g.ancestors s)).resolve? a name = g.resolve? a name := by
  rw [Layers.resolve?, hg.owner?_layers hs ha, resolve?_eq, firstIn, Option.bind_map]
  congr 1
  funext o
  rw [Function.comp_apply, lookup_layer]
  rfl

include hg hs ha in
/-- A name is found nowhere, or in the first scope that owns it. -/
theorem Rooted.resolve?_cases (name : String) :
    (g.resolve? a name = none ∧ (g.layers (g.ancestors s)).owner? a name = none) ∨
    ∃ o ∈ g.ancestors s, ∃ value, g.resolve? a name = some (o, value) ∧ g.hasOwn o name = true ∧
      (g.layers (g.ancestors s)).owner? a name = some (g.layer o) := by
  rw [hg.owner?_layers hs ha, resolve?_eq, firstIn]
  cases ho : (g.ancestors a).find? fun o => g.hasOwn o name with
  | none => exact Or.inl ⟨rfl, rfl⟩
  | some o =>
    have hown := List.find?_some ho
    have hmem : o ∈ g.ancestors s := by
      have hin := List.mem_of_find?_eq_some ho
      rw [hg.ancestors_of_mem hs ha] at hin
      exact (List.dropWhile_sublist _).subset hin
    obtain ⟨value, hvalue⟩ := Option.isSome_iff_exists.mp hown
    exact Or.inr ⟨o, hmem, value, by simp [getOwn?, hvalue], hown, rfl⟩

theorem getOwn?_layers (hmem : a ∈ chain) (name : String) :
    (g.layers chain).getOwn? a name = g.getOwn? a name := by
  have hfind : (chain.find? fun t => t == a) = some a := by
    cases hfound : chain.find? fun t => t == a with
    | none => exact absurd (beq_self_eq_true a) (List.find?_eq_none.mp hfound a hmem)
    | some t =>
      have ht := List.find?_some hfound
      rw [beq_iff_eq.mp ht]
  have hlayer : ((g.layers chain).find? fun l => l.scope == a) = some (g.layer a) := by
    rw [layers, List.find?_map]
    exact congrArg (Option.map g.layer) hfind
  rw [Layers.getOwn?, hlayer, Option.bind_some, lookup_layer]

theorem names_layers (g : ScopeGraph) (chain : List ScopeId) :
    ((g.layers chain).flatMap fun l => l.cells.map Prod.fst) = chain.flatMap g.ownNames := by
  rw [layers, List.flatMap_map]
  rfl

/-! ## Changes -/

/-- Where a change of the graph changes the cells of one scope. -/
theorem layers_eq_change {f : List (String × Value) → List (String × Value)}
    (hself : (g'.get a).cells.entries = f (g.get a).cells.entries)
    (hother : ∀ t ≠ a, (g'.get t).cells = (g.get t).cells) :
    g'.layers chain = (g.layers chain).change a f := by
  rw [layers, layers, Layers.change, List.map_map]
  refine List.map_congr_left fun t _ => ?_
  by_cases hta : t = a
  · simp [layer, Layer.map, hta, hself]
  · simp [layer, hta, hother t hta]

theorem layers_declare (hlt : a < g.size) (name : String) (value : Value) :
    (g.declare a name value).layers chain = (g.layers chain).change a (insertEntry name value) := by
  apply layers_eq_change
  · rw [declare, get_modify, if_pos ⟨rfl, hlt⟩, Dict.entries_insert]
  · intro t ht
    rw [declare, get_modify, if_neg fun h => ht h.1.symm]

theorem entries_removeOwn (g : ScopeGraph) (a : ScopeId) (name : String) :
    ((g.removeOwn a name).2.get a).cells.entries = eraseEntry name (g.get a).cells.entries := by
  rw [removeOwn]
  split
  next hown =>
    have hlt : a < g.size := lt_size_of_own (hasOwn_iff.mp hown)
    rw [get_modify, if_pos ⟨rfl, hlt⟩, Dict.entries_erase]
  next hnone => exact (eraseEntry_of_not_mem fun hmem => hnone (hasOwn_iff.mpr hmem)).symm

theorem get_removeOwn_of_ne (g : ScopeGraph) {t : ScopeId} (ht : t ≠ a) (name : String) :
    (g.removeOwn a name).2.get t = g.get t := by
  rw [removeOwn]
  split
  · rw [get_modify, if_neg fun h => ht h.1.symm]
  · rfl

theorem layers_removeOwn (g : ScopeGraph) (a : ScopeId) (name : String) :
    (g.removeOwn a name).2.layers chain = (g.layers chain).change a (eraseEntry name) :=
  layers_eq_change (entries_removeOwn g a name) fun _ ht => by rw [get_removeOwn_of_ne g ht]

theorem fst_removeOwn (g : ScopeGraph) (a : ScopeId) (name : String) :
    (g.removeOwn a name).1 = g.hasOwn a name := by
  rw [removeOwn]
  split
  next h => exact h.symm
  next h => exact (Bool.eq_false_iff.mpr h).symm

theorem sameBeyond_declare (hmem : a ∈ chain) (name : String) (value : Value) :
    g.SameBeyond chain (g.declare a name value) :=
  .modify g hmem fun cells => cells.insert name value

theorem sameBeyond_removeOwn (hmem : a ∈ chain) (name : String) :
    g.SameBeyond chain (g.removeOwn a name).2 := by
  rw [removeOwn]
  split
  · exact .modify g hmem fun cells => cells.erase name
  · exact .refl g

/-- Removing a name from scopes one after the other: each loses its own cell, and is counted if it had
one. -/
theorem foldl_removeOwn (name : String) (scopes : List ScopeId) (hnodup : scopes.Nodup)
    (hsub : scopes ⊆ chain) (n : Nat) (g : ScopeGraph) :
    let r := scopes.foldl (fun (count, g) a =>
      match ScopeGraph.removeOwn g a name with
      | (true, g) => (count + 1, g)
      | (false, g) => (count, g)) (n, g)
    r.1 = n + scopes.countP (fun a => g.hasOwn a name) ∧ g.SameBeyond chain r.2 ∧
      (∀ t ∈ scopes, (r.2.get t).cells.entries = eraseEntry name (g.get t).cells.entries) ∧
      ∀ t ∉ scopes, r.2.get t = g.get t := by
  induction scopes generalizing n g with
  | nil => simp [SameBeyond.refl]
  | cons a rest ih =>
    obtain ⟨ha, hrest⟩ := List.nodup_cons.mp hnodup
    obtain ⟨hmem, hsub⟩ := List.cons_subset.mp hsub
    have hstep : (match g.removeOwn a name with
        | (true, g) => (n + 1, g)
        | (false, g) => (n, g)) = (n + (if g.hasOwn a name then 1 else 0), (g.removeOwn a name).2) := by
      rw [← fst_removeOwn]
      rcases g.removeOwn a name with ⟨_ | _, g'⟩ <;> rfl
    obtain ⟨hcount, hsame, hgone, hother⟩ :=
      ih hrest hsub (n + if g.hasOwn a name then 1 else 0) (g.removeOwn a name).2
    simp only [List.foldl_cons]
    rw [hstep]
    have hkept : ∀ t ∈ rest, (g.removeOwn a name).2.get t = g.get t := fun t ht =>
      get_removeOwn_of_ne g (fun h : t = a => ha (h ▸ ht)) name
    refine ⟨?_, (sameBeyond_removeOwn hmem name).trans hsame, fun t ht => ?_, fun t ht => ?_⟩
    · have hcounts : rest.countP (fun t => (g.removeOwn a name).2.hasOwn t name) =
          rest.countP fun t => g.hasOwn t name :=
        List.countP_congr fun t ht => by rw [hasOwn, hkept t ht, hasOwn]
      rw [hcount, hcounts, List.countP_cons]
      omega
    · rcases List.mem_cons.mp ht with rfl | ht
      · rw [hother t ha, entries_removeOwn]
      · rw [hgone t ht, hkept t ht]
    · rw [List.mem_cons, not_or] at ht
      rw [hother t ht.2, get_removeOwn_of_ne g ht.1]

/-- Removing a name along a chain: every cell of it goes, and they are counted. -/
theorem removeAll_effects (hnodup : (g.ancestors a).Nodup) (hsub : g.ancestors a ⊆ chain) (name : String) :
    (g.removeAll a name).1 = (g.ancestors a).countP (fun t => g.hasOwn t name) ∧
      g.SameBeyond chain (g.removeAll a name).2 ∧
      (∀ t ∈ g.ancestors a, ((g.removeAll a name).2.get t).cells.entries =
        eraseEntry name (g.get t).cells.entries) ∧
      ∀ t ∉ g.ancestors a, (g.removeAll a name).2.get t = g.get t := by
  have hfold := foldl_removeOwn name (g.ancestors a) hnodup hsub 0 g
  rw [Nat.zero_add] at hfold
  exact hfold

end ScopeGraph

end ScriptCore

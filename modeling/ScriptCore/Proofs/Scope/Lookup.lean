import ScriptCore.Proofs.Scope.Forest
import ScriptCore.Proofs.Scope.Layers

/-!
# Scopes that act as ordered maps

Whatever is asked of the cells along a chain of scopes, the graph and the list of ordered maps go on
showing the same (`Mirrors.serveAll`). So every lookup is one in the first map that has the name, every
change is one of the maps it is said to change, and all else in the graph stays (`lookups_refine`).
-/
namespace ScriptCore

open ScopeGraph

/-- A graph that came from another by changing cells along a chain, and ordered maps that show the cells
of that chain. -/
structure Mirrors (g : ScopeGraph) (chain : List ScopeId) (u : CellUse) (m : LayerUse) : Prop where
  same : g.SameBeyond chain u.graph
  layers_eq : m.layers = u.graph.layers chain
  references_eq : m.references = u.references
  on_chain : ∀ r ∈ u.references, r.1 ∈ chain

/-- What the scopes of a chain show, read off the ordered maps. -/
structure Shows (chain : List ScopeId) (u : CellUse) (m : LayerUse) : Prop where
  cells : m.layers = chain.map fun s => ⟨s, (u.graph.get s).cells.entries⟩
  resolve : ∀ a ∈ chain, ∀ name, u.graph.resolve? a name = m.layers.resolve? a name
  get : ∀ a ∈ chain, ∀ name, u.graph.get? a name = (m.layers.resolve? a name).map Prod.snd
  has : ∀ a ∈ chain, ∀ name, u.graph.has a name = (m.layers.owner? a name).isSome
  allNames : ∀ a ∈ chain, u.graph.allNames a = m.layers.names a
  countReachable : ∀ a ∈ chain, u.graph.countReachable a = (m.layers.names a).toFinset.card
  /-- without the nearest cell of a name, the next owner further out comes into sight -/
  next_owner : ∀ a ∈ chain, ∀ name owner value, u.graph.resolve? a name = some (owner, value) →
    (u.graph.removeNearest a name).2.resolve? a name =
      (u.graph.parent? owner).bind fun p => u.graph.resolve? p name
  references : m.references = u.references
  /-- a reference reads the cell of its own scope -/
  reference : ∀ r ∈ u.references, u.graph.getOwn? r.1 r.2 = m.layers.getOwn? r.1 r.2
  /-- whatever is declared in other scopes -/
  reference_stays : ∀ r ∈ u.references, ∀ a ≠ r.1, ∀ name value,
    (u.graph.declare a name value).getOwn? r.1 r.2 = u.graph.getOwn? r.1 r.2
  references_stay : ∀ request, u.references <+: (u.serve request).2.references

variable {g : ScopeGraph} {s a : ScopeId} {u : CellUse} {m : LayerUse}

/-- A distinct name counts once. -/
theorem length_eraseDups (names : List String) : names.eraseDups.length = names.toFinset.card := by
  induction hn : names.length using Nat.strongRecOn generalizing names with
  | _ n ih =>
    cases names with
    | nil => rfl
    | cons name rest =>
      have hlt : (rest.filter fun other => !other == name).length < n := by
        rw [← hn, List.length_cons]
        exact Nat.lt_succ_of_le (List.length_filter_le _ _)
      have hset : (name :: rest).toFinset =
          insert name (rest.filter fun other => !other == name).toFinset := by
        ext other
        by_cases h : other = name <;> simp [h]
      rw [List.eraseDups_cons, List.length_cons, ih _ hlt _ rfl, hset,
        Finset.card_insert_of_notMem (by simp)]

namespace Mirrors

/-! ## Along a chain -/

section Chain

variable (h : Mirrors g (g.ancestors s) u m) (hg : g.Rooted) (hs : s < g.size)
include h

theorem layers_eq_chain : m.layers = u.graph.layers (u.graph.ancestors s) := by
  rw [h.layers_eq, h.same.ancestors_eq]

include hg in
theorem rooted : u.graph.Rooted := h.same.rooted hg

include hs in
theorem lt_size : s < u.graph.size := h.same.size_eq.symm ▸ hs

variable (ha : a ∈ g.ancestors s)

include ha in
theorem mem_ancestors : a ∈ u.graph.ancestors s := h.same.ancestors_eq ▸ ha

include hg hs ha in
theorem lt_size_of_mem : a < u.graph.size :=
  (h.rooted hg).lt_of_mem_ancestors (h.lt_size hs) (h.mem_ancestors ha)

include hg hs ha in
theorem resolve?_eq (name : String) : m.layers.resolve? a name = u.graph.resolve? a name := by
  rw [h.layers_eq_chain]
  exact (h.rooted hg).resolve?_layers (h.lt_size hs) (h.mem_ancestors ha) name

include hg hs ha in
theorem seenFrom_eq : m.layers.seenFrom a = u.graph.layers (u.graph.ancestors a) := by
  rw [h.layers_eq_chain]
  exact (h.rooted hg).seenFrom_layers (h.lt_size hs) (h.mem_ancestors ha)

include hg hs ha in
/-- A name is found nowhere, or in a scope of the chain that owns it. -/
theorem resolve?_cases (name : String) :
    (u.graph.resolve? a name = none ∧ m.layers.owner? a name = none) ∨
    ∃ o ∈ g.ancestors s, ∃ value, u.graph.resolve? a name = some (o, value) ∧
      u.graph.hasOwn o name = true ∧ m.layers.owner? a name = some (u.graph.layer o) := by
  have hcases := (h.rooted hg).resolve?_cases (h.lt_size hs) (h.mem_ancestors ha) name
  rwa [← h.layers_eq_chain, h.same.ancestors_eq] at hcases

end Chain

/-! ## Requests -/

section Step

variable (h : Mirrors g (g.ancestors s) u m) (hg : g.Rooted) (hs : s < g.size)
include h

/-- A change of the graph that the maps follow. -/
theorem change {g' : ScopeGraph} {layers : Layers} (hsame : u.graph.SameBeyond (g.ancestors s) g')
    (hlayers : layers = g'.layers (g.ancestors s)) :
    Mirrors g (g.ancestors s) { u with graph := g' } { m with layers := layers } :=
  ⟨h.same.trans hsame, hlayers, h.references_eq, h.on_chain⟩

include hg hs in
theorem declare (ha : a ∈ g.ancestors s) (name : String) (value : Value) :
    Mirrors g (g.ancestors s) { u with graph := u.graph.declare a name value }
      { m with layers := m.layers.change a (insertEntry name value) } :=
  h.change (sameBeyond_declare ha name value) (by
    rw [h.layers_eq, layers_declare (h.lt_size_of_mem hg hs ha)])

theorem removeOwn (ha : a ∈ g.ancestors s) (name : String) :
    Mirrors g (g.ancestors s) { u with graph := (u.graph.removeOwn a name).2 }
      { m with layers := m.layers.change a (eraseEntry name) } :=
  h.change (sameBeyond_removeOwn ha name) (by rw [h.layers_eq, layers_removeOwn])

include hg hs in
theorem removeAll (ha : a ∈ g.ancestors s) (name : String) :
    (u.graph.removeAll a name).1 = (m.layers.seenFrom a).countP (Layer.owns name) ∧
    Mirrors g (g.ancestors s) { u with graph := (u.graph.removeAll a name).2 }
      { m with layers := m.layers.within a ++ (m.layers.seenFrom a).map (Layer.map (eraseEntry name)) } := by
  have hrooted := h.rooted hg
  have hchain := hrooted.ancestors_of_mem (h.lt_size hs) (h.mem_ancestors ha)
  rw [congrFun h.same.ancestors_eq s] at hchain
  have hsub : u.graph.ancestors a ⊆ g.ancestors s := by
    rw [hchain]
    exact (List.dropWhile_sublist _).subset
  obtain ⟨hcount, hsame, hgone, hother⟩ :=
    removeAll_effects (hrooted.nodup_ancestors a) hsub name
  rw [h.seenFrom_eq hg hs ha]
  constructor
  · rw [hcount, layers, List.countP_map]
    exact List.countP_congr fun t _ => by rw [Function.comp_apply, owns_layer]
  · refine h.change hsame ?_
    -- the chain is what lies further in, and then the ancestors of `a`
    have hsplit := List.takeWhile_append_dropWhile (p := fun t => t != a) (l := g.ancestors s)
    have hnodup := hg.nodup_ancestors s
    rw [← hsplit, List.nodup_append'] at hnodup
    have hwithin : m.layers.within a = u.graph.layers ((g.ancestors s).takeWhile (· != a)) := by
      rw [h.layers_eq, Layers.within, layers, List.takeWhile_map]
      rfl
    have hall : (u.graph.removeAll a name).2.layers (g.ancestors s) =
        (u.graph.removeAll a name).2.layers ((g.ancestors s).takeWhile (· != a)) ++
          (u.graph.removeAll a name).2.layers (u.graph.ancestors a) := by
      conv_lhs => rw [← hsplit]
      rw [hchain, layers, List.map_append]
      rfl
    rw [hwithin, hall, layers, layers, List.map_map]
    congr 1
    · refine List.map_congr_left fun t ht => ?_
      have hout : t ∉ u.graph.ancestors a := fun hin => hnodup.2.2 ht (hchain ▸ hin)
      rw [layer, layer, hother t hout]
    · refine List.map_congr_left fun t ht => ?_
      rw [layer, hgone t ht]
      rfl

include hg hs in
/-- One request: the same answer, and still the same to show. -/
theorem serve {request : CellRequest} (hon : request.On (g.ancestors s)) :
    (u.serve request).1 = (m.serve request).1 ∧
      Mirrors g (g.ancestors s) (u.serve request).2 (m.serve request).2 := by
  cases request with
  | declare a name value => exact ⟨rfl, h.declare hg hs (hon a rfl) name _⟩
  | set a name value =>
    obtain ⟨hnone, hlayers⟩ | ⟨o, ho, found, hfound, -, hlayers⟩ := h.resolve?_cases hg hs (hon a rfl) name
    · rw [CellUse.serve, LayerUse.serve, ScopeGraph.set, hnone, hlayers]
      exact ⟨rfl, h.declare hg hs (hon a rfl) name value⟩
    · rw [CellUse.serve, LayerUse.serve, ScopeGraph.set, hfound, hlayers]
      exact ⟨rfl, h.declare hg hs ho name value⟩
  | removeOwn a name =>
    refine ⟨?_, h.removeOwn (hon a rfl) name⟩
    have hown := getOwn?_layers (g := u.graph) (hon a rfl) name
    rw [CellUse.serve, LayerUse.serve, h.layers_eq, hown]
    exact congrArg CellAnswer.removed (fst_removeOwn u.graph a name)
  | removeNearest a name =>
    obtain ⟨hnone, hlayers⟩ | ⟨o, ho, found, hfound, hown, hlayers⟩ := h.resolve?_cases hg hs (hon a rfl) name
    · rw [CellUse.serve, LayerUse.serve, ScopeGraph.removeNearest, hnone, hlayers]
      exact ⟨rfl, h⟩
    · rw [CellUse.serve, LayerUse.serve, ScopeGraph.removeNearest, hfound, hlayers]
      exact ⟨congrArg CellAnswer.removed ((fst_removeOwn u.graph o name).trans hown), h.removeOwn ho name⟩
  | removeAll a name =>
    obtain ⟨hcount, hmirrors⟩ := h.removeAll hg hs (hon a rfl) name
    exact ⟨congrArg CellAnswer.count hcount, hmirrors⟩
  | resolve a name =>
    rw [CellUse.serve, LayerUse.serve, h.resolve?_eq hg hs (hon a rfl)]
    obtain ⟨hnone, -⟩ | ⟨o, ho, found, hfound, -, -⟩ := h.resolve?_cases hg hs (hon a rfl) name
    · rw [hnone]
      exact ⟨rfl, h⟩
    · rw [hfound]
      refine ⟨rfl, h.same, h.layers_eq, ?_, fun r hr => ?_⟩
      · rw [h.references_eq]
      · rcases List.mem_append.mp hr with hr | hr
        · exact h.on_chain r hr
        · rw [List.mem_singleton.mp hr]
          exact ho
  | setReference number value =>
    have hsame : m.references[number]? = u.references[number]? := by rw [h.references_eq]
    rw [CellUse.serve, LayerUse.serve, hsame]
    cases href : u.references[number]? with
    | none => exact ⟨rfl, h⟩
    | some r => exact ⟨rfl, h.declare hg hs (h.on_chain r (List.mem_of_getElem? href)) r.2 value⟩

include hg hs in
/-- Any number of requests. -/
theorem serveAll {requests : List CellRequest} (hon : ∀ r ∈ requests, r.On (g.ancestors s)) :
    (u.serveAll requests).1 = (m.serveAll requests).1 ∧
      Mirrors g (g.ancestors s) (u.serveAll requests).2 (m.serveAll requests).2 := by
  induction requests generalizing u m with
  | nil => exact ⟨rfl, h⟩
  | cons request rest ih =>
    obtain ⟨hfirst, hnext⟩ := h.serve hg hs (hon request List.mem_cons_self)
    obtain ⟨hanswers, hlast⟩ := ih hnext fun r hr => hon r (List.mem_cons_of_mem request hr)
    exact ⟨congrArg₂ List.cons hfirst hanswers, hlast⟩

end Step

end Mirrors

/-! ## What is seen -/

namespace ScopeGraph

/-- The ancestors above a scope of a chain are the rest of the chain. -/
theorem Rooted.ancestors_split (hg : g.Rooted) (hs : s < g.size) {inner outer : List ScopeId}
    {o : ScopeId} (hsplit : g.ancestors s = inner ++ o :: outer) :
    outer = ((g.parent? o).map g.ancestors).getD [] := by
  have hmem : o ∈ g.ancestors s := by
    rw [hsplit]
    exact List.mem_append_right _ List.mem_cons_self
  have hnodup := hg.nodup_ancestors s
  rw [hsplit, List.nodup_append'] at hnodup
  have hchain := hg.ancestors_of_mem hs hmem
  rw [hg.ancestors_eq (hg.lt_of_mem_ancestors hs hmem), hsplit,
    List.dropWhile_append_of_pos, List.dropWhile_cons_of_neg (by simp)] at hchain
  · exact (List.cons.inj hchain).2.symm
  · intro t ht
    have hne : t ≠ o := fun heq => hnodup.2.2 ht (heq ▸ List.mem_cons_self)
    simpa using hne

/-- Without the nearest cell of a name, a lookup goes on above the scope that owned it. -/
theorem Rooted.resolve?_removeNearest (hg : g.Rooted) (hs : s < g.size) {name : String} {owner : ScopeId}
    {value : Value} (hfound : g.resolve? s name = some (owner, value)) :
    (g.removeNearest s name).2.resolve? s name =
      (g.parent? owner).bind fun p => g.resolve? p name := by
  have hremoved : (g.removeNearest s name).2 = (g.removeOwn owner name).2 := by
    rw [removeNearest, hfound]
  rw [resolve?_eq, firstIn] at hfound
  obtain ⟨o, ho, hvalue⟩ := Option.bind_eq_some_iff.mp hfound
  obtain ⟨value', -, heq⟩ := Option.map_eq_some_iff.mp hvalue
  cases heq
  obtain ⟨-, inner, outer, hsplit, hinner⟩ := List.find?_eq_some_iff_append.mp ho
  have hnodup := hg.nodup_ancestors s
  rw [hsplit, List.nodup_append', List.nodup_cons] at hnodup
  have hkept : ∀ t ≠ owner, (g.removeOwn owner name).2.get t = g.get t := fun t ht =>
    get_removeOwn_of_ne g ht name
  -- nothing further in owned the name, and the owner does no more
  have hpassed : ∀ t ∈ inner ++ [owner], (g.removeOwn owner name).2.hasOwn t name = false := by
    intro t ht
    rcases List.mem_append.mp ht with ht | ht
    · have hne : t ≠ owner := fun heq => hnodup.2.2 ht (heq ▸ List.mem_cons_self)
      rw [hasOwn, hkept t hne]
      simpa [hasOwn] using hinner t ht
    · rw [List.mem_singleton.mp ht, ← owns_layer, Layer.owns, layer, entries_removeOwn,
        lookupEntry_eraseEntry _ _ (Dict.keys_nodup _), if_pos rfl]
      rfl
  have hout : ∀ t ∈ outer, (g.removeOwn owner name).2.get t = g.get t := fun t ht =>
    hkept t fun heq => hnodup.2.1.1 (heq ▸ ht)
  have hbeyond : g.SameBeyond [owner] (g.removeOwn owner name).2 :=
    sameBeyond_removeOwn (List.mem_singleton_self owner) name
  calc (g.removeNearest s name).2.resolve? s name
      = (g.removeOwn owner name).2.firstIn name (inner ++ [owner] ++ outer) := by
        rw [hremoved, resolve?_eq, hbeyond.ancestors_eq, hsplit, List.append_cons]
    _ = g.firstIn name outer := by rw [firstIn_append_of_not hpassed, firstIn_congr hout]
    _ = (g.parent? owner).bind fun p => g.resolve? p name := by
        rw [hg.ancestors_split hs hsplit]
        cases g.parent? owner with
        | none => rfl
        | some p => exact (g.resolve?_eq p name).symm

end ScopeGraph

/-- What mirrors a graph shows what the graph shows. -/
theorem Mirrors.shows (h : Mirrors g (g.ancestors s) u m) (hg : g.Rooted) (hs : s < g.size) :
    Shows (g.ancestors s) u m where
  cells := h.layers_eq
  resolve a ha name := (h.resolve?_eq hg hs ha name).symm
  get a ha name := by rw [ScopeGraph.get?, h.resolve?_eq hg hs ha]
  has a ha name := by
    rw [ScopeGraph.has]
    obtain ⟨hnone, hlayers⟩ | ⟨o, -, value, hfound, -, hlayers⟩ := h.resolve?_cases hg hs ha name
    · rw [hnone, hlayers]
      rfl
    · rw [hfound, hlayers]
      rfl
  allNames a ha := by
    rw [Layers.names, h.seenFrom_eq hg hs ha, names_layers]
    rfl
  countReachable a ha := by
    rw [Layers.names, h.seenFrom_eq hg hs ha, names_layers, ScopeGraph.countReachable, length_eraseDups]
    rfl
  next_owner a ha name owner value hfound :=
    (h.rooted hg).resolve?_removeNearest (h.lt_size_of_mem hg hs ha) hfound
  references := h.references_eq
  reference r hr := by rw [h.layers_eq, getOwn?_layers (h.on_chain r hr)]
  reference_stays r _ a ha name value := by
    rw [getOwn?, ScopeGraph.declare, get_modify, if_neg fun heq => ha heq.1, getOwn?]
  references_stay request := by
    cases request with
    | resolve a name =>
      rw [CellUse.serve]
      split
      · exact List.prefix_append _ _
      · exact List.prefix_refl _
    | setReference number value =>
      rw [CellUse.serve]
      split <;> exact List.prefix_refl _
    | _ => exact List.prefix_refl _

/-- **Along a chain of scopes, lookups and changes are those of a list of ordered maps.** Whatever is
asked for, the graph and the maps give the same answers and go on showing the same; beyond the cells of
the chain, the graph stays as it was. -/
theorem lookups_refine (hg : g.Rooted) (hs : s < g.size) (requests : List CellRequest)
    (hon : ∀ r ∈ requests, r.On (g.ancestors s)) :
    let u := CellUse.serveAll ⟨g, []⟩ requests
    let m := LayerUse.serveAll ⟨g.layers (g.ancestors s), []⟩ requests
    u.1 = m.1 ∧ Shows (g.ancestors s) u.2 m.2 ∧ g.SameBeyond (g.ancestors s) u.2.graph := by
  have hstart : Mirrors g (g.ancestors s) ⟨g, []⟩ ⟨g.layers (g.ancestors s), []⟩ :=
    ⟨.refl g, rfl, rfl, nofun⟩
  obtain ⟨hanswers, hmirrors⟩ := hstart.serveAll hg hs hon
  exact ⟨hanswers, hmirrors.shows hg hs, hmirrors.same⟩

/-- A name that two scopes of a chain own, with a reference to the outer cell. -/
def shadowing : List CellRequest :=
  [.declare 0 "x" none, .resolve 2 "x", .set 2 "x" (.str "outer"), .declare 1 "x" (some (.str "inner")),
    .set 2 "y" .null, .setReference 0 (.str "kept"), .removeNearest 2 "x", .resolve 2 "x",
    .removeAll 2 "x", .removeOwn 2 "y"]

/-- The reference keeps the outer cell while an inner one comes and goes. -/
theorem lookups_refine_shadowing :
    let g := (Session.after [.root, .newChild 0, .newChild 1]).graph
    let u := CellUse.serveAll ⟨g, []⟩ shadowing
    let m := LayerUse.serveAll ⟨g.layers (g.ancestors 2), []⟩ shadowing
    (g.Rooted ∧ 2 < g.size ∧ ∀ r ∈ shadowing, r.On (g.ancestors 2)) ∧
      (u.1 = m.1 ∧ Shows (g.ancestors 2) u.2 m.2 ∧ g.SameBeyond (g.ancestors 2) u.2.graph) ∧
      u.1 = [.stored .undefined, .resolved (some (0, .undefined)), .stored (.str "outer"),
        .stored (.str "inner"), .stored .null, .stored (.str "kept"), .removed true,
        .resolved (some (0, .str "kept")), .count 1, .removed true] := by
  have hg : (Session.after [.root, .newChild 0, .newChild 1]).graph.Rooted :=
    (Session.consistent_after _).rooted
  have hs : 2 < (Session.after [.root, .newChild 0, .newChild 1]).graph.size := by decide
  have hon : ∀ r ∈ shadowing,
      r.On ((Session.after [.root, .newChild 0, .newChild 1]).graph.ancestors 2) := by
    simp [shadowing, CellRequest.On, CellRequest.scope?]
    decide +kernel
  exact ⟨⟨hg, hs, hon⟩, lookups_refine hg hs shadowing hon, by rfl⟩

end ScriptCore

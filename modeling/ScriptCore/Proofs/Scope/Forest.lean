import Mathlib.Data.List.Dedup
import Mathlib.Logic.Function.Basic
import ScriptCore.Proofs.Scope.Ancestry

/-!
# The forest of scopes

Those who hold scopes make new ones, move them and let them go. A `Session` is the graph with the
handles that are out and a record of the attachments made so far. Two copies of one relation, the
parent link and the child list, stay in step through every sequence of requests: stored child lists
are the children by their parent links in the order of their last attachment (`Consistent`), and what
a caller sees of them is the part that still lives.

Attaching a scope elsewhere takes from its old parent what held it through that scope alone: the
scopes that cease to live with a move are among the former ancestors of the scope that moved.
-/
namespace ScriptCore.ScopeGraph

open Relation

variable {g g' : ScopeGraph}

/-! ## Parent links and stored child lists after a change -/

/-- A child list as it is stored, with the children that live no more. -/
def stored (g : ScopeGraph) (s : ScopeId) : List ScopeId := (g.get s).children.toList

theorem parent?_addRoot (name : Option String) : (g.addRoot name).2.parent? = g.parent? := by
  funext s
  rw [addRoot, parent?, get_add]
  split
  next h => rw [parent?, get_of_le (Nat.le_of_eq h.symm)]
  · rfl

theorem stored_addRoot (name : Option String) : (g.addRoot name).2.stored = g.stored := by
  funext s
  rw [addRoot, stored, get_add]
  split
  next h => rw [stored, get_of_le (Nat.le_of_eq h.symm)]
  · rfl

theorem parent?_addChild (p : ScopeId) :
    (g.addChild p).2.parent? = Function.update g.parent? g.size (some p) := by
  funext s
  have hadd : (g.add { parent := some p }).2.parent? s = Function.update g.parent? g.size (some p) s := by
    rw [parent?, get_add, Function.update_apply]
    split <;> rfl
  rw [addChild, parent?, get_modify, ← hadd, parent?]
  split <;> rfl

theorem stored_addChild {p : ScopeId} (hp : p < g.size) (s : ScopeId) :
    (g.addChild p).2.stored s = g.stored s ++ if s = p then [g.size] else [] := by
  have hadd : (g.add { parent := some p }).2.stored s = g.stored s := by
    rw [stored, get_add]
    split
    next h => rw [stored, get_of_le (Nat.le_of_eq h.symm)]
    · rfl
  have hlt : p < (g.add { parent := some p }).2.size := by
    rw [size_add]
    exact Nat.lt_succ_of_lt hp
  rw [addChild, stored, get_modify, ← hadd]
  by_cases h : s = p
  · subst h
    rw [if_pos ⟨rfl, hlt⟩, if_pos rfl, stored, Array.toList_push]
    rfl
  · rw [if_neg (fun heq => h heq.1.symm), if_neg h, List.append_nil, stored]

theorem toList_erase (list : Array ScopeId) (c : ScopeId) :
    (list.erase c).toList = list.toList.erase c := by
  cases list
  simp

/-- Detaching a child makes it a root and takes it out of the list. -/
theorem detach_of_mem {p c : ScopeId} (hmem : c ∈ g.stored p) (hc : c < g.size) :
    (g.detach p c).2.size = g.size ∧
    (g.detach p c).2.parent? = Function.update g.parent? c none ∧
    ∀ s, (g.detach p c).2.stored s = if s = p then (g.stored s).erase c else g.stored s := by
  have hcontains : (g.get p).children.contains c = true := by simpa [stored] using hmem
  have hp : p < g.size := by
    by_contra hp
    rw [stored, get_of_le (Nat.le_of_not_lt hp)] at hmem
    cases hmem
  rw [detach, if_pos hcontains]
  refine ⟨by simp, ?_, fun s => ?_⟩
  · funext s
    rw [parent?, get_modify, get_modify, size_modify, Function.update_apply]
    by_cases hs : s = c
    · rw [if_pos ⟨hs.symm, hs ▸ hc⟩, if_pos hs]
    · rw [if_neg (fun h => hs h.1.symm), if_neg hs, parent?]
      split <;> rfl
  · have hsame : ((g.modify p fun t => { t with children := t.children.erase c }).modify c
        fun t => { t with parent := none }).stored s =
        (g.modify p fun t => { t with children := t.children.erase c }).stored s := by
      rw [stored, get_modify, stored]
      split <;> rfl
    rw [hsame, stored, get_modify]
    by_cases hs : s = p
    · rw [if_pos ⟨hs.symm, hs ▸ hp⟩, if_pos hs, stored, toList_erase]
    · rw [if_neg (fun h => hs h.1.symm), if_neg hs, stored]

/-- Attaching a scope that no list holds makes it the last child. -/
theorem parent?_stored_attached {p c : ScopeId} (hp : p < g.size) (hc : c < g.size) :
    let after := (g.modify c fun t => { t with parent := some p }).modify p
      fun t => { t with children := t.children.push c }
    after.size = g.size ∧ after.parent? = Function.update g.parent? c (some p) ∧
    ∀ s, after.stored s = g.stored s ++ if s = p then [c] else [] := by
  refine ⟨by simp, ?_, fun s => ?_⟩
  · funext s
    have hset : (g.modify c fun t => { t with parent := some p }).parent? s =
        Function.update g.parent? c (some p) s := by
      rw [parent?, get_modify, Function.update_apply]
      by_cases hs : s = c
      · rw [if_pos ⟨hs.symm, hs ▸ hc⟩, if_pos hs]
      · rw [if_neg (fun h => hs h.1.symm), if_neg hs, parent?]
    rw [parent?, get_modify, ← hset, parent?]
    split <;> rfl
  · have hset : (g.modify c fun t => { t with parent := some p }).stored s = g.stored s := by
      rw [stored, get_modify, stored]
      split <;> rfl
    rw [stored, get_modify, size_modify, ← hset]
    by_cases hs : s = p
    · rw [if_pos ⟨hs.symm, hs ▸ hp⟩, if_pos hs, stored, Array.toList_push]
    · rw [if_neg (fun h => hs h.1.symm), if_neg hs, List.append_nil, stored]

/-- Attaching a scope elsewhere, where every list that holds it is its parent's. -/
theorem attach_moves {p c : ScopeId} (hp : p < g.size) (hc : c < g.size)
    (hlisted : ∀ s, c ∈ g.stored s ↔ g.IsParent s c)
    (hcycle : ¬(c = p ∨ c ∈ g.ancestors p)) (hparent : g.parent? c ≠ some p) :
    ∃ g', g.attach p c = .ok (true, g') ∧ g'.size = g.size ∧
      g'.parent? = Function.update g.parent? c (some p) ∧
      ∀ s, g'.stored s = (g.stored s).erase c ++ if s = p then [c] else [] := by
  rw [attach, if_neg hcycle, if_neg hparent]
  cases hq : g.parent? c with
  | none =>
    obtain ⟨hsize, hparents, hlists⟩ := parent?_stored_attached hp hc
    refine ⟨_, rfl, hsize, hparents, fun s => ?_⟩
    have hout : c ∉ g.stored s := by
      rw [hlisted, IsParent, hq]
      exact (Option.some_ne_none s).symm
    rw [hlists, List.erase_of_not_mem hout]
  | some q =>
    have hlink : g.IsParent q c := hq
    obtain ⟨hdsize, hdparents, hdlists⟩ := detach_of_mem ((hlisted q).mpr hlink) hc
    obtain ⟨hsize, hparents, hlists⟩ :=
      @parent?_stored_attached (g.detach q c).2 p c (hdsize ▸ hp) (hdsize ▸ hc)
    refine ⟨_, rfl, hsize.trans hdsize, ?_, fun s => ?_⟩
    · rw [hparents, hdparents, Function.update_idem]
    · rw [hlists, hdlists]
      by_cases hs : s = q
      · rw [if_pos hs]
      · have hout : c ∉ g.stored s := fun hin => hs (((hlisted s).mp hin).unique hlink)
        rw [if_neg hs, List.erase_of_not_mem hout]

/-! ## Roots stay within reach -/

/-- Taking a parent link away cuts chains short. -/
theorem Rooted.cut (hg : g.Rooted) {c : ScopeId} (hsize : g'.size = g.size)
    (hparent : g'.parent? = Function.update g.parent? c none) : g'.Rooted := by
  have hsub : ∀ p s, g'.IsParent p s → g.IsParent p s := by
    intro p s h
    rw [IsParent, hparent, Function.update_apply] at h
    split at h
    · cases h
    · exact h
  constructor
  · intro s p h
    rw [hsize]
    exact hg.parent_lt s p (hsub p s h)
  · exact Subrelation.wf (hsub _ _) hg.ends

/-- Hanging `c` beneath a scope that is not beneath `c` keeps every chain finite. -/
theorem Rooted.hang (hg : g.Rooted) {p c : ScopeId} (hsize : g.size ≤ g'.size) (hp : p < g'.size)
    (hparent : g'.parent? = Function.update g.parent? c (some p))
    (hcycle : ¬ ReflTransGen g.IsParent c p) : g'.Rooted := by
  have hlink : ∀ q s, g'.IsParent q s → s = c ∧ q = p ∨ g.IsParent q s := by
    intro q s h
    rw [IsParent, hparent, Function.update_apply] at h
    split at h
    next hs => exact Or.inl ⟨hs, (Option.some.inj h).symm⟩
    · exact Or.inr h
  -- first the scopes that are not beneath `c`, then `c`, then what hangs on it
  have hoff : ∀ s, ¬ ReflTransGen g.IsParent c s → Acc g'.IsParent s := by
    intro s
    induction s using hg.ends.induction with
    | _ s ih =>
      intro hs
      constructor
      intro q hq
      cases hlink q s hq with
      | inl h => exact absurd (h.1 ▸ ReflTransGen.refl) hs
      | inr h => exact ih q h fun hcq => hs (hcq.tail h)
  have hc : Acc g'.IsParent c := by
    constructor
    intro q hq
    have hqp : q = p := by
      rw [IsParent, hparent, Function.update_self] at hq
      exact (Option.some.inj hq).symm
    rw [hqp]
    exact hoff p hcycle
  constructor
  · intro s q h
    cases hlink q s h with
    | inl h => rw [h.2]; exact hp
    | inr h => exact Nat.lt_of_lt_of_le (hg.parent_lt s q h) hsize
  · constructor
    intro s
    induction s using hg.ends.induction with
    | _ s ih =>
      by_cases hs : s = c
      · rw [hs]
        exact hc
      · constructor
        intro q hq
        cases hlink q s hq with
        | inl h => exact absurd h.1 hs
        | inr h => exact ih q h

/-! ## Sessions -/

/-- What the holders of scopes may ask for. -/
inductive Request
  | root
  | named (name : String)
  | newChild (p : ScopeId)
  | attach (p c : ScopeId)
  | detach (p c : ScopeId)
  /-- a further handle of a scope that lives, such as a parent link or a child list gives -/
  | hold (s : ScopeId)
  | drop (s : ScopeId)

/-- A scope graph in use. -/
structure Session where
  graph : ScopeGraph := {}
  /-- the handles that are out, one entry for each -/
  handles : List ScopeId := []
  /-- the scopes that were attached, one entry for each time, the latest last -/
  attached : List ScopeId := []

namespace Session

variable (σ : Session)

/-- Something holds the scope or a descendant of it. -/
def Live (s : ScopeId) : Prop := σ.graph.isLive σ.handles s = true

instance (s : ScopeId) : Decidable (σ.Live s) := inferInstanceAs (Decidable (_ = true))

/-- The children of a scope as its holders see them. -/
def children (s : ScopeId) : List ScopeId := σ.graph.liveChildren σ.handles s

/-- Serve one request; only those who hold the scopes that it is about can make it. -/
def step : Request → Session
  | .root =>
    let (s, g) := σ.graph.addRoot none
    { σ with graph := g, handles := s :: σ.handles }
  | .named name =>
    let (s, g) := σ.graph.addRoot (some name)
    { σ with graph := g, handles := s :: σ.handles }
  | .newChild p =>
    if p ∈ σ.handles then
      let (c, g) := σ.graph.addChild p
      { graph := g, handles := c :: σ.handles, attached := σ.attached ++ [c] }
    else σ
  | .attach p c =>
    if p ∈ σ.handles ∧ c ∈ σ.handles then
      match σ.graph.attach p c with
      | .ok (true, g) => { σ with graph := g, attached := σ.attached ++ [c] }
      | .ok (false, g) => { σ with graph := g }
      | .error _ => σ
    else σ
  | .detach p c =>
    if p ∈ σ.handles ∧ c ∈ σ.handles then { σ with graph := (σ.graph.detach p c).2 } else σ
  | .hold s => if σ.Live s then { σ with handles := s :: σ.handles } else σ
  | .drop s => { σ with handles := σ.handles.erase s }

/-- The session after some requests. -/
def after (requests : List Request) : Session := requests.foldl step {}

/-- The two copies of the parent relation agree, and everything in use exists. -/
structure Consistent : Prop where
  rooted : σ.graph.Rooted
  handle_lt : ∀ s ∈ σ.handles, s < σ.graph.size
  attached_lt : ∀ s ∈ σ.attached, s < σ.graph.size
  attached_of_parent : ∀ p c, σ.graph.IsParent p c → c ∈ σ.attached
  stored_eq : ∀ p, σ.graph.stored p = σ.attached.dedup.filter fun c => σ.graph.parent? c = some p

variable {σ}

/-! ### The order of attachment -/

/-- Attaching a scope once more makes it the one attached last. -/
theorem dedup_append_singleton (l : List ScopeId) (c : ScopeId) :
    (l ++ [c]).dedup = l.dedup.erase c ++ [c] := by
  induction l with
  | nil => simp
  | cons a l ih =>
    rw [List.cons_append]
    by_cases hmem : a ∈ l
    · rw [List.dedup_cons_of_mem (List.mem_append_left _ hmem), List.dedup_cons_of_mem hmem, ih]
    · rw [List.dedup_cons_of_notMem hmem]
      by_cases hac : a = c
      · subst hac
        rw [List.dedup_cons_of_mem (by simp), ih, List.erase_cons_head,
          List.erase_of_not_mem (fun h => hmem (List.mem_dedup.mp h))]
      · have hout : a ∉ l ++ [c] := by simp [hmem, hac]
        rw [List.dedup_cons_of_notMem hout, ih, List.erase_cons_tail (by simpa using hac),
          List.cons_append]

/-- With a new parent for the scope that is attached, the children by parent links are those before,
with the scope moved to the end of its new parent's. -/
theorem filter_dedup_moved (parent : ScopeId → Option ScopeId) (l : List ScopeId) (p c q : ScopeId) :
    ((l ++ [c]).dedup.filter fun x => decide (Function.update parent c (some p) x = some q)) =
      (l.dedup.filter fun x => parent x = some q).erase c ++ if q = p then [c] else [] := by
  rw [dedup_append_singleton, List.filter_append]
  congr 1
  · rw [(l.nodup_dedup).erase_eq_filter, ((l.nodup_dedup).filter _).erase_eq_filter, List.filter_filter,
      List.filter_filter]
    refine List.filter_congr fun x _ => ?_
    by_cases hx : x = c <;> simp [hx, Bool.and_comm]
  · by_cases hq : q = p
    · simp [hq]
    · simp [hq, Ne.symm hq]

/-- Without a parent, a scope is no one's child. -/
theorem filter_cut (parent : ScopeId → Option ScopeId) {l : List ScopeId} (hl : l.Nodup)
    (c q : ScopeId) :
    (l.filter fun x => decide (Function.update parent c none x = some q)) =
      (l.filter fun x => parent x = some q).erase c := by
  rw [(hl.filter _).erase_eq_filter, List.filter_filter]
  refine List.filter_congr fun x _ => ?_
  by_cases hx : x = c <;> simp [hx]

/-! ### Every request keeps the session consistent -/

theorem Live.lt (h : σ.Consistent) {s : ScopeId} (hs : σ.Live s) : s < σ.graph.size := by
  obtain ⟨held, hheld, hchain⟩ := (h.rooted.isLive_iff h.handle_lt s).mp hs
  exact h.rooted.lt_of_chain hchain (h.handle_lt held hheld)

theorem Consistent.live_of_mem (h : σ.Consistent) {s : ScopeId} (hs : s ∈ σ.handles) : σ.Live s :=
  (h.rooted.isLive_iff h.handle_lt s).mpr ⟨s, hs, .refl⟩

/-- A child list holds the children by parent links. -/
theorem Consistent.mem_stored (h : σ.Consistent) (p c : ScopeId) :
    c ∈ σ.graph.stored p ↔ σ.graph.IsParent p c := by
  rw [h.stored_eq, List.mem_filter, List.mem_dedup, decide_eq_true_eq]
  exact ⟨And.right, fun hlink => ⟨h.attached_of_parent p c hlink, hlink⟩⟩

theorem Consistent.nodup_stored (h : σ.Consistent) (p : ScopeId) : (σ.graph.stored p).Nodup := by
  rw [h.stored_eq]
  exact (List.nodup_dedup _).filter _

theorem consistent_empty : Consistent {} where
  rooted := by
    have hnone : ∀ p s, ¬ IsParent {} p s := fun p s h => Nat.not_lt_zero s h.lt
    exact ⟨fun s p h => absurd h (hnone p s), ⟨fun s => ⟨s, fun p h => absurd h (hnone p s)⟩⟩⟩
  handle_lt := nofun
  attached_lt := nofun
  attached_of_parent _ _ h := absurd h.lt (Nat.not_lt_zero _)
  stored_eq _ := rfl

theorem Consistent.addRoot (h : σ.Consistent) (name : Option String) :
    Consistent { σ with
      graph := (σ.graph.addRoot name).2
      handles := (σ.graph.addRoot name).1 :: σ.handles } := by
  have hlink : ∀ p s, (σ.graph.addRoot name).2.IsParent p s ↔ σ.graph.IsParent p s := by
    intro p s
    rw [IsParent, parent?_addRoot, IsParent]
  have hsize : (σ.graph.addRoot name).2.size = σ.graph.size + 1 := size_add _ _
  constructor
  · constructor
    · intro s p hp
      rw [hsize]
      exact Nat.lt_succ_of_lt (h.rooted.parent_lt s p ((hlink p s).mp hp))
    · exact Subrelation.wf ((hlink _ _).mp) h.rooted.ends
  · intro s hs
    rw [hsize]
    cases hs with
    | head => exact Nat.lt_succ_self _
    | tail _ hs => exact Nat.lt_succ_of_lt (h.handle_lt s hs)
  · intro s hs
    rw [hsize]
    exact Nat.lt_succ_of_lt (h.attached_lt s hs)
  · exact fun p c hc => h.attached_of_parent p c ((hlink p c).mp hc)
  · intro p
    rw [stored_addRoot, parent?_addRoot]
    exact h.stored_eq p

/-- Where a scope is hung beneath another and everything else stays, the session stays consistent. -/
theorem Consistent.hang (h : σ.Consistent) {p c : ScopeId} {handles : List ScopeId}
    (hsize : σ.graph.size ≤ g.size) (hp : p < g.size) (hc : c < g.size)
    (hparent : g.parent? = Function.update σ.graph.parent? c (some p))
    (hstored : ∀ s, g.stored s = (σ.graph.stored s).erase c ++ if s = p then [c] else [])
    (hcycle : ¬ ReflTransGen σ.graph.IsParent c p) (hhandles : ∀ s ∈ handles, s < g.size) :
    Consistent { graph := g, handles := handles, attached := σ.attached ++ [c] } := by
  constructor
  · exact h.rooted.hang hsize hp hparent hcycle
  · exact hhandles
  · intro s hs
    rw [List.mem_append, List.mem_singleton] at hs
    cases hs with
    | inl hs => exact Nat.lt_of_lt_of_le (h.attached_lt s hs) hsize
    | inr hs => rw [hs]; exact hc
  · intro q s hq
    rw [List.mem_append, List.mem_singleton]
    by_cases hs : s = c
    · exact Or.inr hs
    · rw [IsParent, hparent, Function.update_of_ne hs] at hq
      exact Or.inl (h.attached_of_parent q s hq)
  · intro q
    rw [hstored, h.stored_eq, hparent]
    exact (filter_dedup_moved _ _ _ _ _).symm

theorem Consistent.newChild (h : σ.Consistent) {p : ScopeId} (hp : p ∈ σ.handles) :
    Consistent {
      graph := (σ.graph.addChild p).2
      handles := (σ.graph.addChild p).1 :: σ.handles
      attached := σ.attached ++ [(σ.graph.addChild p).1] } := by
  have hlt : p < σ.graph.size := h.handle_lt p hp
  have hsize : (σ.graph.addChild p).2.size = σ.graph.size + 1 := size_addChild _ _
  have hout : ∀ s, σ.graph.size ∉ σ.graph.stored s := fun s hs =>
    Nat.lt_irrefl _ ((h.mem_stored s _).mp hs).lt
  have hnew : σ.graph.size < (σ.graph.addChild p).2.size := by
    rw [hsize]
    exact Nat.lt_succ_self _
  refine h.hang (Nat.le_of_lt hnew) (Nat.lt_trans hlt hnew) hnew (parent?_addChild p) (fun s => ?_)
    (fun hchain => ?_) (fun s hs => ?_)
  · rw [stored_addChild hlt, fst_addChild, List.erase_of_not_mem (hout s)]
  · exact Nat.lt_irrefl _ (h.rooted.lt_of_chain hchain hlt)
  · rw [hsize]
    cases hs with
    | head => exact Nat.lt_succ_self _
    | tail _ hs => exact Nat.lt_succ_of_lt (h.handle_lt s hs)

theorem Consistent.detach (h : σ.Consistent) {p c : ScopeId} (hc : c ∈ σ.handles) :
    Consistent { σ with graph := (σ.graph.detach p c).2 } := by
  by_cases hmem : c ∈ σ.graph.stored p
  · obtain ⟨hsize, hparent, hstored⟩ := detach_of_mem hmem (h.handle_lt c hc)
    have hlink : σ.graph.IsParent p c := (h.mem_stored p c).mp hmem
    constructor
    · exact h.rooted.cut hsize hparent
    · intro s hs
      rw [hsize]
      exact h.handle_lt s hs
    · intro s hs
      rw [hsize]
      exact h.attached_lt s hs
    · intro q s hq
      rw [IsParent, hparent, Function.update_apply] at hq
      split at hq
      · cases hq
      · exact h.attached_of_parent q s hq
    · intro q
      rw [hstored, hparent, filter_cut _ (List.nodup_dedup _), ← h.stored_eq]
      by_cases hq : q = p
      · rw [if_pos hq]
      · have hout : c ∉ σ.graph.stored q := fun hin => hq (((h.mem_stored q c).mp hin).unique hlink)
        rw [if_neg hq, List.erase_of_not_mem hout]
  · have hcontains : (σ.graph.get p).children.contains c = false := by
      simpa [stored] using hmem
    rw [ScopeGraph.detach, hcontains]
    exact h

/-- The ways an attachment goes. -/
theorem Consistent.attach_cases (h : σ.Consistent) {p c : ScopeId} (hp : p ∈ σ.handles)
    (hc : c ∈ σ.handles) :
    (c = p ∨ TransGen σ.graph.IsParent c p) ∧ σ.graph.attach p c = .error .scopeCycle ∨
    ¬(c = p ∨ TransGen σ.graph.IsParent c p) ∧ σ.graph.IsParent p c ∧
      σ.graph.attach p c = .ok (false, σ.graph) ∨
    ¬(c = p ∨ TransGen σ.graph.IsParent c p) ∧ ¬ σ.graph.IsParent p c ∧
      ∃ g, σ.graph.attach p c = .ok (true, g) ∧ g.size = σ.graph.size ∧
        g.parent? = Function.update σ.graph.parent? c (some p) ∧
        ∀ s, g.stored s = (σ.graph.stored s).erase c ++ if s = p then [c] else [] := by
  have hplt : p < σ.graph.size := h.handle_lt p hp
  have hcycle : (c = p ∨ c ∈ σ.graph.ancestors p) ↔ (c = p ∨ TransGen σ.graph.IsParent c p) := by
    rw [h.rooted.mem_ancestors_iff hplt, reflTransGen_iff_eq_or_transGen]
    grind
  by_cases hbeneath : c = p ∨ c ∈ σ.graph.ancestors p
  · exact Or.inl ⟨hcycle.mp hbeneath, by rw [ScopeGraph.attach, if_pos hbeneath]⟩
  · have hfree := fun h => hbeneath (hcycle.mpr h)
    by_cases hparent : σ.graph.parent? c = some p
    · exact Or.inr (Or.inl ⟨hfree, hparent, by rw [ScopeGraph.attach, if_neg hbeneath, if_pos hparent]⟩)
    · exact Or.inr (Or.inr ⟨hfree, hparent,
        attach_moves hplt (h.handle_lt c hc) (fun s => h.mem_stored s c) hbeneath hparent⟩)

/-- Every request keeps the session consistent. -/
theorem Consistent.step (h : σ.Consistent) (request : Request) : (σ.step request).Consistent := by
  cases request with
  | root => exact h.addRoot none
  | named name => exact h.addRoot (some name)
  | newChild p =>
    rw [Session.step]
    split
    next hp => exact h.newChild hp
    · exact h
  | attach p c =>
    rw [Session.step]
    split
    next hheld =>
      obtain ⟨-, heq⟩ | ⟨-, -, heq⟩ | ⟨hfree, -, g, heq, hsize, hparent, hstored⟩ :=
        h.attach_cases hheld.1 hheld.2
      · rw [heq]
        exact h
      · rw [heq]
        exact h
      · rw [heq]
        have hcycle : ¬ ReflTransGen σ.graph.IsParent c p := by
          rw [reflTransGen_iff_eq_or_transGen]
          exact fun hchain => hfree (hchain.imp_left Eq.symm)
        exact h.hang (Nat.le_of_eq hsize.symm) (hsize ▸ h.handle_lt p hheld.1)
          (hsize ▸ h.handle_lt c hheld.2) hparent hstored hcycle
          (fun s hs => hsize ▸ h.handle_lt s hs)
    · exact h
  | detach p c =>
    rw [Session.step]
    split
    next hheld => exact h.detach hheld.2
    · exact h
  | hold s =>
    rw [Session.step]
    split
    next hlive =>
      refine ⟨h.rooted, fun t ht => ?_, h.attached_lt, h.attached_of_parent, h.stored_eq⟩
      cases ht with
      | head => exact Live.lt h hlive
      | tail _ ht => exact h.handle_lt t ht
    · exact h
  | drop s =>
    exact ⟨h.rooted, fun t ht => h.handle_lt t (List.mem_of_mem_erase ht), h.attached_lt,
      h.attached_of_parent, h.stored_eq⟩

/-- Whatever was asked for, the session is consistent. -/
theorem consistent_after (requests : List Request) : (after requests).Consistent := by
  have hfold : ∀ σ : Session, σ.Consistent → (requests.foldl Session.step σ).Consistent := by
    induction requests with
    | nil => exact fun σ h => h
    | cons request rest ih => exact fun σ h => ih (σ.step request) (h.step request)
  exact hfold {} consistent_empty

end Session

end ScriptCore.ScopeGraph

import ScriptCore.Proofs.Scope.Attachment
import ScriptCore.Proofs.Scope.Change
import ScriptCore.Proofs.Scope.Counting
import ScriptCore.Proofs.Scope.Layers

/-!
# Scopes that are held

A `Store` is a scope graph with the handles and references that are out, the strong handles of each scope
counted one by one, and the child lists as lists of weak handles. Nothing here asks what can be reached:
a scope is freed when its count comes to nothing. In every state that uses of the scopes lead to, the
counts and lists tell the same as the graph does (`Store.Sound`), so that a scope is kept just as long as
something that is held can be reached from it downwards (`kept_while_reachable`).

Cells hold no scopes here: closures are the only values that do.
-/
namespace ScriptCore.ScopeGraph

open Relation

/-- What keeps a scope: a handle of it, or a reference to one of its cells. -/
inductive Holder
  | handle (s : ScopeId)
  | reference (s : ScopeId) (name : String) (value : Value)

def Holder.scope : Holder → ScopeId
  | handle s | reference s _ _ => s

/-- What those who hold scopes may do. -/
inductive Use
  | root
  | named (name : String)
  | newChild (p : ScopeId)
  | attach (p c : ScopeId)
  | detach (p c : ScopeId)
  | declare (s : ScopeId) (name : String) (value : Value)
  | removeOwn (s : ScopeId) (name : String)
  /-- look a name up, and keep the reference -/
  | resolve (s : ScopeId) (name : String)
  /-- a further handle of a scope that is kept, such as a parent link or a child list gives -/
  | hold (s : ScopeId)
  /-- let a handle or a reference go -/
  | drop (number : Nat)

/-- The same scopes may be held otherwise, as long as all that is held exists. -/
theorem Session.Consistent.reheld {g : ScopeGraph} {handles handles' attached : List ScopeId}
    (h : Session.Consistent ⟨g, handles, attached⟩) (hlt : ∀ s ∈ handles', s < g.size) :
    Session.Consistent ⟨g, handles', attached⟩ :=
  ⟨h.rooted, hlt, h.attached_lt, h.attached_of_parent, h.stored_eq⟩

/-- A scope graph in use, with its handles counted. -/
structure Store where
  graph : ScopeGraph := {}
  /-- the handles and references that are out -/
  holders : List Holder := []
  strong : Counts := fun _ => 0
  /-- the child lists: weak handles, in the order of attachment -/
  weak : ScopeId → List ScopeId := fun _ => []

namespace Store

variable (σ : Store)

/-- The scopes that are held, once for each holder. -/
def held : List ScopeId := σ.holders.map Holder.scope

/-- The children of a scope: those of its list that are kept. -/
def children (p : ScopeId) : List ScopeId := (σ.weak p).filter fun c => 0 < σ.strong c

/-- The child lists with `c` as the last child of `p`, where the entries of freed scopes are swept out. -/
def listed (p c : ScopeId) : ScopeId → List ScopeId := Function.update σ.weak p (σ.children p ++ [c])

/-- The store with a scope that was made, and a handle of it. -/
def make (made : ScopeId × ScopeGraph) : Store :=
  { σ with
    graph := made.2
    holders := .handle made.1 :: σ.holders
    strong := Function.update σ.strong made.1 1 }

/-- A further handle or reference. -/
def take (h : Holder) : Store :=
  { σ with holders := h :: σ.holders, strong := σ.strong.add h.scope }

/-- Take `c` off the child list of `p` and cut its parent link. -/
def detach (p c : ScopeId) : Store :=
  if c ∈ σ.children p then
    let g := (σ.graph.detach p c).2
    { σ with
      graph := g
      strong := g.release g.size p σ.strong
      weak := Function.update σ.weak p ((σ.weak p).erase c) }
  else σ

/-- Serve one use; only those who hold the scopes that it is about can make it. -/
def step : Use → Store
  | .root => σ.make (σ.graph.addRoot none)
  | .named name => σ.make (σ.graph.addRoot (some name))
  | .newChild p =>
    if p ∈ σ.held then
      let made := σ.graph.addChild p
      { Store.make { σ with strong := σ.strong.add p } made with weak := σ.listed p made.1 }
    else σ
  | .attach p c =>
    if p ∈ σ.held ∧ c ∈ σ.held then
      match σ.graph.attach p c with
      | .ok (true, g) =>
        let σ := match σ.graph.parent? c with
          | some q => σ.detach q c
          | none => σ
        { σ with graph := g, strong := σ.strong.add p, weak := σ.listed p c }
      | .ok (false, _) => σ
      | .error _ => σ
    else σ
  | .detach p c => if p ∈ σ.held ∧ c ∈ σ.held then σ.detach p c else σ
  | .declare s name value => if s ∈ σ.held then { σ with graph := σ.graph.declare s name value } else σ
  | .removeOwn s name => if s ∈ σ.held then { σ with graph := (σ.graph.removeOwn s name).2 } else σ
  | .resolve s name =>
    if s ∈ σ.held then
      match σ.graph.resolve? s name with
      | some (owner, value) => σ.take (.reference owner name value)
      | none => σ
    else σ
  | .hold s => if 0 < σ.strong s then σ.take (.handle s) else σ
  | .drop number =>
    match σ.holders[number]? with
    | some h =>
      { σ with
        holders := σ.holders.eraseIdx number
        strong := σ.graph.release σ.graph.size h.scope σ.strong }
    | none => σ

/-- The store after some uses. -/
def after (uses : List Use) : Store := uses.foldl step {}

/-- Weak child lists hold the stored children that are kept, and perhaps some that are not, in order. -/
structure Lists (weak stored : ScopeId → List ScopeId) (n : Counts) : Prop where
  sublist : ∀ p, (weak p).Sublist (stored p)
  complete : ∀ p, ∀ c ∈ stored p, 0 < n c → c ∈ weak p

/-- Counts and child lists agree with the graph. -/
structure Sound : Prop where
  consistent : ∃ attached, Session.Consistent ⟨σ.graph, σ.held, attached⟩
  balanced : Balanced σ.graph σ.held σ.strong
  lists : Lists σ.weak σ.graph.stored σ.strong

/-- The scopes that are kept are those that something held can be reached from downwards, and the lists
of children show just these. -/
structure Reached : Prop where
  kept_iff : ∀ s, 0 < σ.strong s ↔
    ∃ holder ∈ σ.holders, ReflTransGen σ.graph.IsParent s holder.scope
  isLive_iff : ∀ s, σ.graph.isLive σ.held s = true ↔ 0 < σ.strong s
  mem_children : ∀ p c, c ∈ σ.children p ↔ σ.graph.parent? c = some p ∧ 0 < σ.strong c
  nodup_children : ∀ p, (σ.children p).Nodup
  children_eq : ∀ p, σ.children p = σ.graph.liveChildren σ.held p
  /-- a scope that was freed never comes back -/
  freed : ∀ (uses : List Use) (s : ScopeId), s < σ.graph.size → σ.strong s = 0 →
    (uses.foldl step σ).strong s = 0

/-- What letting a handle or a reference go does. -/
structure Drops (σ τ : Store) (holder : Holder) : Prop where
  graph_eq : τ.graph = σ.graph
  holders_perm : (holder :: τ.holders).Perm σ.holders
  freed_iff : ∀ s, 0 < σ.strong s → (τ.strong s = 0 ↔
    ∀ other ∈ τ.holders, ¬ ReflTransGen σ.graph.IsParent s other.scope)
  freed_above : ∀ s, 0 < σ.strong s → τ.strong s = 0 → ReflTransGen σ.graph.IsParent s holder.scope
  /-- an ancestor of what is still kept is kept -/
  needed : ∀ s, 0 < τ.strong s → ∀ a, ReflTransGen σ.graph.IsParent a s → 0 < τ.strong a
  children_eq : ∀ p, τ.children p = (σ.children p).filter fun c => 0 < τ.strong c
  removed_iff : ∀ p, ∀ c ∈ σ.children p, (c ∉ τ.children p ↔
    ∀ other ∈ τ.holders, ¬ ReflTransGen σ.graph.IsParent c other.scope)

/-- One state comes after another: it is sound, and a scope that was freed stays so. -/
structure Precedes (σ τ : Store) : Prop where
  sound : τ.Sound
  size_le : σ.graph.size ≤ τ.graph.size
  freed : ∀ s < σ.graph.size, σ.strong s = 0 → τ.strong s = 0

variable {σ} {τ υ : Store} {g : ScopeGraph} {c p s : ScopeId}

theorem Precedes.refl (h : σ.Sound) : σ.Precedes σ := ⟨h, Nat.le_refl _, fun _ _ hs => hs⟩

theorem Precedes.trans (h : σ.Precedes τ) (h' : τ.Precedes υ) : σ.Precedes υ :=
  ⟨h'.sound, Nat.le_trans h.size_le h'.size_le,
    fun s hs hfreed => h'.freed s (Nat.lt_of_lt_of_le hs h.size_le) (h.freed s hs hfreed)⟩

theorem eq_zero_of_imp {m n : Nat} (h : 0 < m → 0 < n) (hn : n = 0) : m = 0 :=
  Nat.eq_zero_of_not_pos fun hm => Nat.ne_of_gt (h hm) hn

/-! ## Child lists -/

namespace Lists

variable {weak stored : ScopeId → List ScopeId} {n n' : Counts} (h : Lists weak stored n)
include h

/-- No list misses anything when scopes are freed. -/
theorem mono (hkept : ∀ p, ∀ c ∈ stored p, 0 < n' c → 0 < n c) : Lists weak stored n' :=
  ⟨h.sublist, fun p c hmem hc => h.complete p c hmem (hkept p c hmem hc)⟩

/-- A child is taken off the list of its parent. -/
theorem erase (hnodup : ∀ s, (stored s).Nodup) (hout : ∀ s ≠ p, c ∉ stored s) :
    Lists (Function.update weak p ((weak p).erase c)) (fun s => (stored s).erase c) n := by
  constructor
  · intro s
    rw [Function.update_apply]
    split
    next hs => rw [hs]; exact (h.sublist p).erase c
    next hs => rw [List.erase_of_not_mem (hout s hs)]; exact h.sublist s
  · intro s x hmem hx
    obtain ⟨hne, hmem⟩ := (hnodup s).mem_erase_iff.mp hmem
    have hin := h.complete s x hmem hx
    rw [Function.update_apply]
    split
    next hs => exact (List.mem_erase_of_ne hne).mpr (hs ▸ hin)
    · exact hin

/-- A list is swept, and a child put at its end. -/
theorem push (hkept : ∀ p, ∀ c ∈ stored p, 0 < n' c → 0 < n c) :
    Lists (Function.update weak p ((weak p).filter (fun x => 0 < n x) ++ [c]))
      (fun s => stored s ++ if s = p then [c] else []) n' := by
  constructor
  · intro s
    rw [Function.update_apply]
    by_cases hs : s = p
    · rw [if_pos hs, if_pos hs, hs]
      exact (List.filter_sublist.trans (h.sublist p)).append_right _
    · rw [if_neg hs, if_neg hs, List.append_nil]
      exact h.sublist s
  · intro s x hmem hx
    rw [Function.update_apply]
    by_cases hs : s = p
    · rw [if_pos hs, List.mem_append] at hmem
      rw [if_pos hs, List.mem_append, List.mem_filter, decide_eq_true_eq]
      rcases hmem with hmem | hnew
      · have hold := hkept s x hmem hx
        exact Or.inl ⟨hs ▸ h.complete s x hmem hold, hold⟩
      · exact Or.inr hnew
    · rw [if_neg hs, List.append_nil] at hmem
      rw [if_neg hs]
      exact h.complete s x hmem (hkept s x hmem hx)

end Lists

namespace Sound

variable (h : σ.Sound)
include h

theorem rooted : σ.graph.Rooted := h.consistent.elim fun _ hc => hc.rooted

theorem lt_of_held (hs : s ∈ σ.held) : s < σ.graph.size := h.consistent.elim fun _ hc => hc.handle_lt s hs

theorem kept_of_held (hs : s ∈ σ.held) : 0 < σ.strong s := h.balanced.pos_of_mem hs

/-- A scope is kept as long as something that is held is beneath it. -/
theorem kept_iff : 0 < σ.strong s ↔ ∃ t ∈ σ.held, ReflTransGen σ.graph.IsParent s t :=
  h.balanced.pos_iff h.rooted fun _ ht => h.lt_of_held ht

theorem lt_of_kept (hs : 0 < σ.strong s) : s < σ.graph.size := by
  by_contra hlt
  have hzero := h.balanced.eq_zero_of_le h.rooted (fun _ ht => h.lt_of_held ht) (Nat.le_of_not_lt hlt)
  exact Nat.ne_of_gt hs hzero

theorem strong_size : σ.strong σ.graph.size = 0 :=
  Nat.eq_zero_of_not_pos fun hkept => Nat.lt_irrefl _ (h.lt_of_kept hkept)

theorem mem_stored : c ∈ σ.graph.stored p ↔ σ.graph.IsParent p c :=
  h.consistent.elim fun _ hc => hc.mem_stored p c

theorem nodup_stored (p : ScopeId) : (σ.graph.stored p).Nodup :=
  h.consistent.elim fun _ hc => hc.nodup_stored p

theorem mem_children : c ∈ σ.children p ↔ σ.graph.IsParent p c ∧ 0 < σ.strong c := by
  rw [children, List.mem_filter, decide_eq_true_eq]
  constructor
  · rintro ⟨hmem, hkept⟩
    exact ⟨h.mem_stored.mp ((h.lists.sublist p).subset hmem), hkept⟩
  · rintro ⟨hlink, hkept⟩
    exact ⟨h.lists.complete p c (h.mem_stored.mpr hlink) hkept, hkept⟩

theorem nodup_children (p : ScopeId) : (σ.children p).Nodup :=
  ((h.nodup_stored p).sublist (h.lists.sublist p)).filter _

/-- Sweeping out what was freed changes nothing that can be seen. -/
theorem children_eq_stored (p : ScopeId) :
    σ.children p = (σ.graph.stored p).filter fun c => 0 < σ.strong c := by
  have hperm : (σ.children p).Perm ((σ.graph.stored p).filter fun c => 0 < σ.strong c) := by
    rw [List.perm_ext_iff_of_nodup (h.nodup_children p) ((h.nodup_stored p).filter _)]
    intro c
    rw [h.mem_children, List.mem_filter, h.mem_stored, decide_eq_true_eq]
  exact ((h.lists.sublist p).filter _).eq_of_length hperm.length_eq

/-! ## Uses -/

theorem drop (number : Nat) : σ.Precedes (σ.step (.drop number)) := by
  rw [step]
  cases hfound : σ.holders[number]? with
  | none => exact .refl h
  | some holder =>
    obtain ⟨hlt, rfl⟩ := List.getElem?_eq_some_iff.mp hfound
    obtain ⟨attached, hc⟩ := h.consistent
    have hperm : (σ.holders[number].scope :: (σ.holders.eraseIdx number).map Holder.scope).Perm σ.held :=
      (List.getElem_cons_eraseIdx_perm hlt).map Holder.scope
    have hmem : σ.holders[number].scope ∈ σ.held := hperm.subset List.mem_cons_self
    have hrest : ∀ s ∈ (σ.holders.eraseIdx number).map Holder.scope, s ∈ σ.held := fun s hs =>
      hperm.subset (List.mem_cons_of_mem _ hs)
    obtain ⟨hbalanced, hle⟩ := (h.balanced.perm hperm).release
      (h.rooted.ancestorsWithin_size_succ (h.lt_of_held hmem))
    refine ⟨⟨⟨attached, hc.reheld fun s hs => hc.handle_lt s (hrest s hs)⟩, hbalanced, ?_⟩,
      Nat.le_refl _, ?_⟩
    · exact h.lists.mono fun p c _ hkept => Nat.lt_of_lt_of_le hkept (hle c)
    · exact fun s _ hs => Nat.eq_zero_of_le_zero (hs ▸ hle s)

theorem take {holder : Holder} (hkept : 0 < σ.strong holder.scope) : σ.Precedes (σ.take holder) := by
  obtain ⟨attached, hc⟩ := h.consistent
  refine ⟨⟨⟨attached, hc.reheld fun s hs => ?_⟩, h.balanced.add hkept, ?_⟩, Nat.le_refl _, ?_⟩
  · cases hs with
    | head => exact h.lt_of_kept hkept
    | tail _ hs => exact hc.handle_lt s hs
  · exact h.lists.mono fun p c _ hc => (Counts.add_pos_iff hkept).mp hc
  · exact fun s _ hs => eq_zero_of_imp (Counts.add_pos_iff hkept).mp hs

/-- Cells hold no scopes. -/
theorem cells {chain : List ScopeId} (hsame : σ.graph.SameBeyond chain g) :
    σ.Precedes { σ with graph := g } := by
  obtain ⟨attached, hc⟩ := h.consistent
  have hstored : g.stored = σ.graph.stored := by
    funext s
    rw [stored, hsame.rest s, stored]
  refine ⟨⟨⟨attached, ?_⟩, h.balanced.congr hsame.size_eq hsame.parent?_eq, hstored ▸ h.lists⟩,
    Nat.le_of_eq hsame.size_eq.symm, fun _ _ hs => hs⟩
  refine ⟨hsame.rooted hc.rooted, fun s hs => ?_, fun s hs => ?_, fun p c hlink => ?_, fun p => ?_⟩
  · exact Nat.lt_of_lt_of_eq (hc.handle_lt s hs) hsame.size_eq.symm
  · exact Nat.lt_of_lt_of_eq (hc.attached_lt s hs) hsame.size_eq.symm
  · exact hc.attached_of_parent p c (by rwa [IsParent, ← hsame.parent?_eq])
  · rw [hstored, hsame.parent?_eq]
    exact hc.stored_eq p

theorem make_root (name : Option String) : σ.Precedes (σ.make (σ.graph.addRoot name)) := by
  obtain ⟨attached, hc⟩ := h.consistent
  have hparent : (σ.graph.addRoot name).2.parent? = Function.update σ.graph.parent? σ.graph.size none := by
    have hroot : σ.graph.parent? σ.graph.size = none := by rw [parent?, get_of_le (Nat.le_refl _)]
    rw [parent?_addRoot, ← hroot, Function.update_eq_self]
  have hsize : (σ.graph.addRoot name).2.size = σ.graph.size + 1 := size_add _ _
  have hold : ∀ s < σ.graph.size, Function.update σ.strong σ.graph.size 1 s = σ.strong s :=
    fun s hs => Function.update_of_ne (Nat.ne_of_lt hs) ..
  refine ⟨⟨⟨attached, hc.addRoot name⟩,
    h.balanced.make (q := none) h.strong_size hsize hparent, ?_⟩, ?_, ?_⟩
  · have hlists : Lists σ.weak σ.graph.stored (Function.update σ.strong σ.graph.size 1) :=
      h.lists.mono fun p c hmem hkept => Nat.lt_of_lt_of_eq hkept (hold c (h.mem_stored.mp hmem).lt)
    rwa [← stored_addRoot name] at hlists
  · exact Nat.le_of_lt (Nat.lt_of_lt_of_eq (Nat.lt_succ_self _) hsize.symm)
  · exact fun s hs hfreed => (hold s hs).trans hfreed

/-- A child that is made is the last of its parent's. -/
theorem newChild (hp : p ∈ σ.held) : σ.Precedes (σ.step (.newChild p)) := by
  obtain ⟨attached, hc⟩ := h.consistent
  have hkept := h.kept_of_held hp
  have hlt := h.lt_of_held hp
  have hold : ∀ s < σ.graph.size, 0 < Function.update (σ.strong.add p) σ.graph.size 1 s →
      0 < σ.strong s := by
    intro s hs hpos
    rw [Function.update_of_ne (Nat.ne_of_lt hs)] at hpos
    exact (Counts.add_pos_iff hkept).mp hpos
  have hnew : σ.strong.add p σ.graph.size = 0 :=
    eq_zero_of_imp (Counts.add_pos_iff hkept).mp h.strong_size
  have hsize : (σ.graph.addChild p).2.size = σ.graph.size + 1 := size_addChild _ _
  rw [step, if_pos hp]
  refine ⟨⟨⟨attached ++ [σ.graph.size], hc.newChild hp⟩,
    (h.balanced.add hkept).make (q := some p) hnew hsize (parent?_addChild p), ?_⟩, ?_, ?_⟩
  · have hstored : (σ.graph.addChild p).2.stored =
        fun s => σ.graph.stored s ++ if s = p then [σ.graph.size] else [] := by
      funext s
      exact stored_addChild hlt s
    have hlists : Lists (σ.listed p σ.graph.size)
        (fun s => σ.graph.stored s ++ if s = p then [σ.graph.size] else [])
        (Function.update (σ.strong.add p) σ.graph.size 1) :=
      h.lists.push fun q c hmem => hold c (h.mem_stored.mp hmem).lt
    rwa [← hstored] at hlists
  · exact Nat.le_of_lt (Nat.lt_of_lt_of_eq (Nat.lt_succ_self _) hsize.symm)
  · exact fun s hs hfreed => eq_zero_of_imp (hold s hs) hfreed

/-- Detaching a child that is held makes it a root, and gives up its handle of the parent. -/
theorem detach_child (hc : c ∈ σ.held) (hlink : σ.graph.IsParent p c) :
    σ.Precedes (σ.detach p c) ∧ (σ.detach p c).held = σ.held ∧
      (σ.detach p c).graph.size = σ.graph.size ∧
      (σ.detach p c).graph.parent? = Function.update σ.graph.parent? c none ∧
      (σ.detach p c).graph.stored = fun s => (σ.graph.stored s).erase c := by
  obtain ⟨attached, hconsistent⟩ := h.consistent
  have hkept := h.kept_of_held hc
  have hlt := h.lt_of_held hc
  have hout : ∀ s ≠ p, c ∉ σ.graph.stored s := fun s hs hin => hs ((h.mem_stored.mp hin).unique hlink)
  obtain ⟨hsize, hparent, hstored⟩ := detach_of_mem (h.mem_stored.mpr hlink) hlt
  have herased : (σ.graph.detach p c).2.stored = fun s => (σ.graph.stored s).erase c := by
    funext s
    rw [hstored]
    split
    · rfl
    next hs => rw [List.erase_of_not_mem (hout s hs)]
  have hafter : Session.Consistent ⟨(σ.graph.detach p c).2, σ.held, attached⟩ := hconsistent.detach hc
  have hcut : Balanced (σ.graph.detach p c).2 (p :: σ.held) σ.strong := by
    have hrelinked := Balanced.relink (q := none) h.balanced hlt hkept hsize hparent
    rwa [show σ.graph.parent? c = some p from hlink] at hrelinked
  obtain ⟨hbalanced, hle⟩ := hcut.release
    (hafter.rooted.ancestorsWithin_size_succ (hsize.symm ▸ h.rooted.parent_lt c p hlink))
  rw [detach, if_pos (h.mem_children.mpr ⟨hlink, hkept⟩)]
  refine ⟨⟨⟨⟨attached, hafter⟩, hbalanced, ?_⟩, Nat.le_of_eq hsize.symm, ?_⟩, rfl, hsize, hparent, herased⟩
  · rw [herased]
    exact (h.lists.erase h.nodup_stored hout).mono fun _ x _ hx => Nat.lt_of_lt_of_le hx (hle x)
  · exact fun s _ hfreed => Nat.eq_zero_of_le_zero (hfreed ▸ hle s)

/-- Hanging a root that is held beneath a scope that is held. -/
theorem hang {attached : List ScopeId} (hp : p ∈ σ.held) (hc : c ∈ σ.held)
    (hroot : σ.graph.parent? c = none) (hconsistent : Session.Consistent ⟨g, σ.held, attached⟩)
    (hsize : g.size = σ.graph.size)
    (hparent : g.parent? = Function.update σ.graph.parent? c (some p))
    (hstored : g.stored = fun s => σ.graph.stored s ++ if s = p then [c] else []) :
    σ.Precedes { σ with graph := g, strong := σ.strong.add p, weak := σ.listed p c } := by
  have hkept := h.kept_of_held hp
  have hadded := h.balanced.add hkept
  have hbalanced : Balanced g σ.held (σ.strong.add p) := by
    have hrelinked := Balanced.relink (q := some p) hadded (h.lt_of_held hc)
      (hadded.pos_of_mem (List.mem_cons_of_mem p hc)) hsize hparent
    rwa [hroot] at hrelinked
  refine ⟨⟨⟨attached, hconsistent⟩, hbalanced, ?_⟩, Nat.le_of_eq hsize.symm, ?_⟩
  · rw [hstored]
    exact h.lists.push fun _ x _ hx => (Counts.add_pos_iff hkept).mp hx
  · exact fun s _ hfreed => eq_zero_of_imp (Counts.add_pos_iff hkept).mp hfreed

/-- A scope that is attached gives up its handle of the old parent and takes one of the new. -/
theorem attach (hp : p ∈ σ.held) (hc : c ∈ σ.held) : σ.Precedes (σ.step (.attach p c)) := by
  obtain ⟨attached, hconsistent⟩ := h.consistent
  rw [step, if_pos ⟨hp, hc⟩]
  obtain ⟨-, heq⟩ | ⟨-, -, heq⟩ | ⟨-, -, g, heq, hsize, hparent, hstored⟩ :=
    hconsistent.attach_cases hp hc
  · rw [heq]
    exact .refl h
  · rw [heq]
    exact .refl h
  · have hafter : Session.Consistent ⟨g, σ.held, attached ++ [c]⟩ := by
      have hstep := hconsistent.step (.attach p c)
      rwa [Session.step_attach_moved hp hc heq] at hstep
    have hstored : g.stored = fun s => (σ.graph.stored s).erase c ++ if s = p then [c] else [] := by
      funext s
      exact hstored s
    rw [heq]
    cases hq : σ.graph.parent? c with
    | none =>
      have hout : ∀ s, (σ.graph.stored s).erase c = σ.graph.stored s := fun s =>
        List.erase_of_not_mem fun hin => Option.some_ne_none s ((h.mem_stored.mp hin).symm.trans hq)
      simp only [hout] at hstored
      exact h.hang hp hc hq hafter hsize hparent hstored
    | some q =>
      obtain ⟨hdetached, hheld, hdsize, hdparent, hdstored⟩ := h.detach_child hc hq
      have hroot : (σ.detach q c).graph.parent? c = none := by rw [hdparent, Function.update_self]
      refine hdetached.trans (hdetached.sound.hang (hheld ▸ hp) (hheld ▸ hc) hroot (hheld ▸ hafter)
        (hsize.trans hdsize.symm) ?_ ?_)
      · rw [hparent, hdparent, Function.update_idem]
      · rw [hstored, hdstored]

theorem detach (p : ScopeId) (hc : c ∈ σ.held) : σ.Precedes (σ.detach p c) := by
  by_cases hchild : c ∈ σ.children p
  · exact (h.detach_child hc (h.mem_children.mp hchild).1).1
  · rw [Store.detach, if_neg hchild]
    exact .refl h

/-- Every use keeps the store sound, and frees for good. -/
theorem step (use : Use) : σ.Precedes (σ.step use) := by
  cases use with
  | root => exact h.make_root none
  | named name => exact h.make_root (some name)
  | newChild p =>
    by_cases hp : p ∈ σ.held
    · exact h.newChild hp
    · rw [Store.step, if_neg hp]
      exact .refl h
  | attach p c =>
    by_cases hheld : p ∈ σ.held ∧ c ∈ σ.held
    · exact h.attach hheld.1 hheld.2
    · rw [Store.step, if_neg hheld]
      exact .refl h
  | detach p c =>
    rw [Store.step]
    split
    next hheld => exact h.detach p hheld.2
    · exact .refl h
  | declare s name value =>
    rw [Store.step]
    split
    · exact h.cells (sameBeyond_declare (List.mem_singleton_self s) name value)
    · exact .refl h
  | removeOwn s name =>
    rw [Store.step]
    split
    · exact h.cells (sameBeyond_removeOwn (List.mem_singleton_self s) name)
    · exact .refl h
  | resolve s name =>
    rw [Store.step]
    split
    next hs =>
      split
      next owner value hfound =>
        have hchain := isParent_of_mem_ancestorsWithin (resolveWithin_spec hfound).2
        exact h.take (h.balanced.pos_of_chain (h.kept_of_held hs) hchain)
      · exact .refl h
    · exact .refl h
  | hold s =>
    rw [Store.step]
    split
    next hkept => exact h.take hkept
    · exact .refl h
  | drop number => exact h.drop number

/-- Any number of uses. -/
theorem uses (uses : List Use) : σ.Precedes (uses.foldl Store.step σ) := by
  induction uses generalizing σ with
  | nil => exact .refl h
  | cons use rest ih => exact (h.step use).trans (ih (h.step use).sound)

end Sound

theorem sound_empty : Sound {} where
  consistent := ⟨[], Session.consistent_empty⟩
  balanced _ := rfl
  lists := ⟨fun _ => List.Sublist.refl _, fun _ _ hmem => absurd hmem List.not_mem_nil⟩

/-- Whatever the scopes were used for, the store is sound. -/
theorem sound_after (uses : List Use) : (after uses).Sound := (sound_empty.uses uses).sound

/-! ## What is kept -/

theorem Sound.kept_iff_holder (h : σ.Sound) :
    0 < σ.strong s ↔ ∃ holder ∈ σ.holders, ReflTransGen σ.graph.IsParent s holder.scope := by
  rw [h.kept_iff, held]
  simp only [List.mem_map, exists_exists_and_eq_and]

theorem Sound.isLive_iff (h : σ.Sound) : σ.graph.isLive σ.held s = true ↔ 0 < σ.strong s := by
  rw [h.rooted.isLive_iff (fun _ ht => h.lt_of_held ht), h.kept_iff]

theorem Sound.reached (h : σ.Sound) : σ.Reached where
  kept_iff _ := h.kept_iff_holder
  isLive_iff _ := h.isLive_iff
  mem_children _ _ := h.mem_children
  nodup_children := h.nodup_children
  children_eq p := by
    rw [h.children_eq_stored, liveChildren, stored]
    refine List.filter_congr fun c _ => ?_
    rw [Bool.eq_iff_iff, decide_eq_true_eq, ← h.isLive_iff]
    exact Iff.rfl
  freed uses := (h.uses uses).freed

theorem Sound.drops (h : σ.Sound) {number : Nat} {holder : Holder}
    (hholder : σ.holders[number]? = some holder) : Drops σ (σ.step (.drop number)) holder := by
  obtain ⟨hτ, -, hfreed⟩ := h.drop number
  have hgraph : (σ.step (.drop number)).graph = σ.graph := by rw [Store.step, hholder]
  have hweak : (σ.step (.drop number)).weak = σ.weak := by rw [Store.step, hholder]
  have hperm : (holder :: (σ.step (.drop number)).holders).Perm σ.holders := by
    obtain ⟨hlt, rfl⟩ := List.getElem?_eq_some_iff.mp hholder
    rw [Store.step, hholder]
    exact List.getElem_cons_eraseIdx_perm hlt
  have hkept : ∀ s, 0 < (σ.step (.drop number)).strong s ↔
      ∃ other ∈ (σ.step (.drop number)).holders, ReflTransGen σ.graph.IsParent s other.scope := fun s => by
    rw [hτ.kept_iff_holder, hgraph]
  have hgone : ∀ s, (σ.step (.drop number)).strong s = 0 ↔
      ∀ other ∈ (σ.step (.drop number)).holders, ¬ ReflTransGen σ.graph.IsParent s other.scope := fun s => by
    rw [← Nat.le_zero, ← Nat.not_lt, hkept]
    push Not
    exact Iff.rfl
  have hchildren : ∀ p, (σ.step (.drop number)).children p =
      (σ.children p).filter fun c => 0 < (σ.step (.drop number)).strong c := by
    intro p
    rw [children, children, hweak, List.filter_filter]
    refine List.filter_congr fun c _ => ?_
    by_cases hc : 0 < (σ.step (.drop number)).strong c
    · have hlt : c < σ.graph.size := hgraph ▸ hτ.lt_of_kept hc
      have hbefore : 0 < σ.strong c :=
        Nat.pos_of_ne_zero fun hzero => Nat.ne_of_gt hc (hfreed c hlt hzero)
      simp [hc, hbefore]
    · simp [hc]
  refine ⟨hgraph, hperm, fun s _ => hgone s, fun s hs hzero => ?_, fun s hs a hchain => ?_, hchildren,
    fun p c hc => ?_⟩
  · obtain ⟨other, hother, hchain⟩ := h.kept_iff_holder.mp hs
    cases hperm.symm.subset hother with
    | head => exact hchain
    | tail _ hother => exact absurd hchain ((hgone s).mp hzero other hother)
  · exact hτ.balanced.pos_of_chain hs (hgraph.symm ▸ hchain)
  · rw [hchildren, List.mem_filter, decide_eq_true_eq, ← hgone]
    exact ⟨fun hout => Nat.eq_zero_of_not_pos fun hpos => hout ⟨hc, hpos⟩,
      fun hzero hin => Nat.ne_of_gt hin.2 hzero⟩

/-- **Counting strong handles keeps a scope exactly as long as something held is at it or beneath it.**
The lists of children show those that are kept, and letting a holder go takes from each list just what
nothing held can be reached from any more. -/
theorem kept_while_reachable (uses : List Use) :
    (after uses).Reached ∧ ∀ number holder, (after uses).holders[number]? = some holder →
      Drops (after uses) ((after uses).step (.drop number)) holder :=
  ⟨(sound_after uses).reached, fun _ _ hholder => (sound_after uses).drops hholder⟩

/-- Three scopes in a chain, of which in the end only a reference to a cell of the middle one is held. -/
def referring : List Use :=
  [.root, .newChild 0, .newChild 1, .declare 1 "x" .null, .resolve 2 "x", .drop 3, .drop 2, .drop 1]

/-- The reference keeps its scope and the one above it, and frees both when it is let go. -/
theorem kept_while_reachable_reference :
    (after referring).holders[0]? = some (.reference 1 "x" .null) ∧
      Drops (after referring) ((after referring).step (.drop 0)) (.reference 1 "x" .null) ∧
      ((after referring).children 0 = [1] ∧ (after referring).children 1 = []) ∧
      ((after referring).step (.drop 0)).strong 0 = 0 := by
  have hholder : (after referring).holders[0]? = some (.reference 1 "x" .null) := by rfl
  exact ⟨hholder, (kept_while_reachable referring).2 0 _ hholder, by decide +kernel, by decide +kernel⟩

end Store

end ScriptCore.ScopeGraph

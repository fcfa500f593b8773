import ScriptCore.Proofs.Scope.Forest

/-!
# What the holders of scopes see

In every state that requests lead to, the scopes form a forest whose links agree (`Linked`), and an
attachment either fails on a cycle, finds the scope where it is to go, or moves it (`Attaches`).

A move changes one parent link. It leaves every child list as it was but for the scope that moved and
for scopes that nothing holds after the move: parent links hold, so a parent that was held by the scope
that moved alone is gone once that scope has another one, and is listed nowhere any more.
-/
namespace ScriptCore.ScopeGraph.Session

open Relation

/-- The scopes form a forest, and the ways to read its links agree. -/
structure Linked (σ : Session) : Prop where
  acyclic : ∀ s, ¬ TransGen σ.graph.IsParent s s
  ancestors_root : ∀ s < σ.graph.size, σ.graph.parent? s = none → σ.graph.ancestors s = [s]
  ancestors_child : ∀ s p, σ.graph.parent? s = some p →
    σ.graph.ancestors s = s :: σ.graph.ancestors p
  depth_root : ∀ s < σ.graph.size, σ.graph.parent? s = none → σ.graph.depth s = 0
  depth_child : ∀ s p, σ.graph.parent? s = some p → σ.graph.depth s = σ.graph.depth p + 1
  count_children : ∀ p c, σ.Live c →
    (σ.children p).count c = if σ.graph.parent? c = some p then 1 else 0
  /-- children come in the order of their last attachment -/
  children_eq : ∀ p, σ.children p =
    σ.attached.dedup.filter fun c => σ.graph.parent? c = some p ∧ σ.Live c
  hasChild_iff : ∀ p c, σ.Live c → (σ.graph.hasChild p c = true ↔ c ∈ σ.children p)

/-- `c` has moved to the end of `p`'s children. -/
structure Moved (before after : Session) (p c : ScopeId) : Prop where
  handles : after.handles = before.handles
  parent : after.graph.parent? c = some p
  parent_of_ne : ∀ s, s ≠ c → after.graph.parent? s = before.graph.parent? s
  /-- every list loses `c` and what lives no more, and `p`'s ends with `c` -/
  children : ∀ s, after.children s =
    (((before.children s).erase c).filter fun x => after.Live x) ++ if s = p then [c] else []
  live : ∀ s, after.Live s → before.Live s
  /-- what lives no more was an ancestor of `c` -/
  ceased : ∀ s, before.Live s → ¬ after.Live s → TransGen before.graph.IsParent s c

/-- What attaching `c` beneath `p` does. -/
structure Attaches (σ : Session) (p c : ScopeId) : Prop where
  fails_iff : σ.graph.attach p c = .error .scopeCycle ↔ c = p ∨ TransGen σ.graph.IsParent c p
  failed : σ.graph.attach p c = .error .scopeCycle → σ.step (.attach p c) = σ
  stays_iff : (∃ g, σ.graph.attach p c = .ok (false, g)) ↔ σ.graph.parent? c = some p
  stayed : (∃ g, σ.graph.attach p c = .ok (false, g)) → σ.step (.attach p c) = σ
  moves_iff : (∃ g, σ.graph.attach p c = .ok (true, g)) ↔
    ¬(c = p ∨ TransGen σ.graph.IsParent c p) ∧ σ.graph.parent? c ≠ some p
  moved : (∃ g, σ.graph.attach p c = .ok (true, g)) → Moved σ (σ.step (.attach p c)) p c

variable {σ : Session}

/-! ## Links -/

/-- The children that are seen, as the stored ones that live. -/
theorem children_eq_stored (s : ScopeId) :
    σ.children s = (σ.graph.stored s).filter fun c => σ.Live c := by
  rw [children, liveChildren, stored]
  refine List.filter_congr fun c _ => ?_
  rw [Bool.eq_iff_iff, decide_eq_true_eq]
  exact Iff.rfl

theorem Consistent.mem_children (h : σ.Consistent) (p c : ScopeId) :
    c ∈ σ.children p ↔ σ.graph.IsParent p c ∧ σ.Live c := by
  rw [children_eq_stored, List.mem_filter, h.mem_stored, decide_eq_true_eq]

theorem Consistent.nodup_children (h : σ.Consistent) (p : ScopeId) : (σ.children p).Nodup := by
  rw [children_eq_stored]
  exact (h.nodup_stored p).filter _

/-- The depth counts the ancestors above the scope itself. -/
theorem Consistent.length_ancestors (h : σ.Consistent) {s : ScopeId} (hs : s < σ.graph.size) :
    (σ.graph.ancestors s).length = σ.graph.depth s + 1 := by
  rw [depth, h.rooted.ancestors_eq hs, List.length_cons, Nat.add_sub_cancel]

theorem Consistent.linked (h : σ.Consistent) : σ.Linked where
  acyclic := h.rooted.irrefl
  ancestors_root s hs hroot := by
    rw [h.rooted.ancestors_eq hs, hroot]
    rfl
  ancestors_child s p hparent := by
    have hlink : σ.graph.IsParent p s := hparent
    rw [h.rooted.ancestors_eq hlink.lt, hparent]
    rfl
  depth_root s hs hroot := by
    rw [depth, h.rooted.ancestors_eq hs, hroot]
    rfl
  depth_child s p hparent := by
    have hlink : σ.graph.IsParent p s := hparent
    rw [← h.length_ancestors (h.rooted.parent_lt s p hlink), depth, h.rooted.ancestors_eq hlink.lt,
      hparent]
    rfl
  count_children p c hlive := by
    by_cases hparent : σ.graph.parent? c = some p
    · rw [if_pos hparent]
      exact List.count_eq_one_of_mem (h.nodup_children p) ((h.mem_children p c).mpr ⟨hparent, hlive⟩)
    · rw [if_neg hparent]
      exact List.count_eq_zero_of_not_mem fun hmem => hparent ((h.mem_children p c).mp hmem).1
  children_eq p := by
    rw [children_eq_stored, h.stored_eq, List.filter_filter]
    exact List.filter_congr fun c _ => by simp [Bool.and_comm]
  hasChild_iff p c hlive := by
    rw [h.mem_children, hasChild, beq_iff_eq]
    exact ⟨fun hparent => ⟨hparent, hlive⟩, And.left⟩

/-! ## A move -/

section Move

variable {τ : Session} {p c : ScopeId}

/-- Off the scope that moved, chains of parents survive a move or pass through it. -/
theorem chain_moved (hparent : τ.graph.parent? = Function.update σ.graph.parent? c (some p))
    {a s : ScopeId} (h : ReflTransGen σ.graph.IsParent a s) :
    ReflTransGen τ.graph.IsParent a s ∨ TransGen σ.graph.IsParent a c := by
  induction h using ReflTransGen.head_induction_on with
  | refl => exact Or.inl .refl
  | @head a b hlink _ ih =>
    by_cases hb : b = c
    · rw [← hb]
      exact Or.inr (.single hlink)
    · have hkept : τ.graph.IsParent a b := by
        rw [IsParent, hparent, Function.update_of_ne hb]
        exact hlink
      cases ih with
      | inl ih => exact Or.inl (ih.head hkept)
      | inr ih => exact Or.inr (ih.head hlink)

/-- A move to a scope that is held brings no scope to life. -/
theorem Consistent.live_of_moved (h : σ.Consistent) (hτ : τ.Consistent) (hp : p ∈ σ.handles)
    (hhandles : τ.handles = σ.handles)
    (hparent : τ.graph.parent? = Function.update σ.graph.parent? c (some p)) {s : ScopeId}
    (hs : τ.Live s) : σ.Live s := by
  obtain ⟨held, hheld, hchain⟩ := (hτ.rooted.isLive_iff hτ.handle_lt s).mp hs
  rw [hhandles] at hheld
  induction hchain using ReflTransGen.head_induction_on with
  | refl => exact h.live_of_mem hheld
  | @head a b hlink hrest ih =>
    have hb : σ.Live b :=
      ih ((hτ.rooted.isLive_iff hτ.handle_lt b).mpr ⟨held, hhandles ▸ hheld, hrest⟩)
    rw [IsParent, hparent, Function.update_apply] at hlink
    split at hlink
    · rw [← Option.some.inj hlink]
      exact h.live_of_mem hp
    · obtain ⟨low, hlow, hbelow⟩ := (h.rooted.isLive_iff h.handle_lt b).mp hb
      exact (h.rooted.isLive_iff h.handle_lt a).mpr ⟨low, hlow, hbelow.head hlink⟩

theorem Consistent.ceased_of_moved (h : σ.Consistent) (hτ : τ.Consistent)
    (hhandles : τ.handles = σ.handles)
    (hparent : τ.graph.parent? = Function.update σ.graph.parent? c (some p)) {s : ScopeId}
    (hs : σ.Live s) (hgone : ¬ τ.Live s) : TransGen σ.graph.IsParent s c := by
  obtain ⟨held, hheld, hchain⟩ := (h.rooted.isLive_iff h.handle_lt s).mp hs
  cases chain_moved hparent hchain with
  | inl hkept =>
    have hlive : τ.Live s :=
      (hτ.rooted.isLive_iff hτ.handle_lt s).mpr ⟨held, hhandles ▸ hheld, hkept⟩
    exact absurd hlive hgone
  | inr habove => exact habove

/-- The lists that are seen after a move. -/
theorem Consistent.moved (h : σ.Consistent) (hτ : τ.Consistent) (hp : p ∈ σ.handles)
    (hc : c ∈ σ.handles) (hhandles : τ.handles = σ.handles)
    (hparent : τ.graph.parent? = Function.update σ.graph.parent? c (some p))
    (hstored : ∀ s, τ.graph.stored s = (σ.graph.stored s).erase c ++ if s = p then [c] else []) :
    Moved σ τ p c where
  handles := hhandles
  parent := by rw [hparent, Function.update_self]
  parent_of_ne s hs := by rw [hparent, Function.update_of_ne hs]
  live s hs := h.live_of_moved hτ hp hhandles hparent hs
  ceased s hs hgone := h.ceased_of_moved hτ hhandles hparent hs hgone
  children s := by
    have hlive : τ.Live c := hτ.live_of_mem (hhandles ▸ hc)
    rw [children_eq_stored, hstored, List.filter_append]
    congr 1
    · rw [children_eq_stored, (h.nodup_stored s).erase_eq_filter,
        ((h.nodup_stored s).filter _).erase_eq_filter, List.filter_filter, List.filter_filter,
        List.filter_filter]
      refine List.filter_congr fun x _ => ?_
      by_cases hx : τ.Live x
      · simp [hx, h.live_of_moved hτ hp hhandles hparent hx]
      · simp [hx]
    · split <;> simp [hlive]

end Move

/-! ## Attaching -/

theorem step_attach_failed {p c : ScopeId} {e : StructuralError} (h : σ.graph.attach p c = .error e) :
    σ.step (.attach p c) = σ := by
  simp [Session.step, h]

theorem step_attach_stayed {p c : ScopeId} (h : σ.graph.attach p c = .ok (false, σ.graph)) :
    σ.step (.attach p c) = σ := by
  simp [Session.step, h]

theorem step_attach_moved {p c : ScopeId} (hp : p ∈ σ.handles) (hc : c ∈ σ.handles) {g : ScopeGraph}
    (h : σ.graph.attach p c = .ok (true, g)) :
    σ.step (.attach p c) = { σ with graph := g, attached := σ.attached ++ [c] } := by
  simp [Session.step, h, hp, hc]

theorem Consistent.attaches (h : σ.Consistent) {p c : ScopeId} (hp : p ∈ σ.handles)
    (hc : c ∈ σ.handles) : σ.Attaches p c := by
  obtain ⟨hcycle, heq⟩ | ⟨hfree, hchild, heq⟩ | ⟨hfree, hother, g, heq, -, hparent, hstored⟩ :=
    h.attach_cases hp hc
  · have hnot : σ.graph.parent? c ≠ some p := by
      intro hchild
      cases hcycle with
      | inl hself => exact h.rooted.irrefl c (.single (hself ▸ hchild))
      | inr habove => exact h.rooted.irrefl c (habove.tail hchild)
    constructor
    · exact ⟨fun _ => hcycle, fun _ => heq⟩
    · exact fun _ => step_attach_failed heq
    · simp [heq, hnot]
    · simp [heq]
    · simp [heq, hcycle]
    · simp [heq]
  · change σ.graph.parent? c = some p at hchild
    constructor
    · simp [heq, hfree]
    · simp [heq]
    · simp [heq, hchild]
    · exact fun _ => step_attach_stayed heq
    · simp [heq, hchild]
    · simp [heq]
  · have hτ := h.step (.attach p c)
    rw [step_attach_moved hp hc heq] at hτ
    change σ.graph.parent? c ≠ some p at hother
    constructor
    · simp [heq, hfree]
    · simp [heq]
    · simp [heq, hother]
    · simp [heq]
    · simp [heq, hfree, hother]
    · intro _
      rw [step_attach_moved hp hc heq]
      exact h.moved hτ hp hc rfl hparent hstored

/-- Whatever is asked for, the scopes stay a forest with links that agree, and attaching a scope does
one of three things. -/
theorem forest_after (requests : List Request) :
    (after requests).Linked ∧ ∀ p ∈ (after requests).handles, ∀ c ∈ (after requests).handles,
      (after requests).Attaches p c :=
  ⟨(consistent_after requests).linked, fun _ hp _ hc => (consistent_after requests).attaches hp hc⟩

theorem exists_of_toOption {r : Except StructuralError (Bool × ScopeGraph)}
    (h : r.toOption.map Prod.fst = some true) : ∃ g, r = .ok (true, g) := by
  cases r with
  | error => cases h
  | ok result =>
    obtain ⟨moved, g⟩ := result
    cases h
    exact ⟨g, rfl⟩

/-- A scope that was made anew, moved there and back, and attached beneath what it is above. -/
theorem forest_after_moves :
    let σ := after [.root, .newChild 0, .newChild 0, .attach 2 1, .attach 0 1]
    (1 ∈ σ.handles ∧ 2 ∈ σ.handles) ∧ σ.children 0 = [2, 1] ∧
      Moved σ (σ.step (.attach 2 1)) 2 1 ∧ σ.graph.attach 1 0 = .error .scopeCycle := by
  have hspec := forest_after [.root, .newChild 0, .newChild 0, .attach 2 1, .attach 0 1]
  refine ⟨by decide +kernel, by decide +kernel, ?_, ?_⟩
  · exact (hspec.2 2 (by decide +kernel) 1 (by decide +kernel)).moved
      (exists_of_toOption (by decide +kernel))
  · exact (hspec.2 1 (by decide +kernel) 0 (by decide +kernel)).fails_iff.mpr
      (Or.inr (.single (by decide +kernel)))

/-- Moving a scope away from a parent that it alone held takes that parent out of the list of the
parent's own parent. -/
theorem not_lists_kept : ¬ ∀ (requests : List Request) (p c : ScopeId) (g : ScopeGraph),
    p ∈ (after requests).handles → c ∈ (after requests).handles →
    (after requests).graph.attach p c = .ok (true, g) →
    ∀ s ∈ (after requests).handles, s ≠ p → (after requests).graph.parent? c ≠ some s →
      ((after requests).step (.attach p c)).children s = (after requests).children s := by
  intro hkept
  obtain ⟨g, hmoved⟩ : ∃ g,
      (after [.root, .newChild 0, .newChild 1, .root, .drop 1]).graph.attach 3 2 = .ok (true, g) :=
    exists_of_toOption (by decide +kernel)
  have hlist := hkept [.root, .newChild 0, .newChild 1, .root, .drop 1] 3 2 g (by decide +kernel)
    (by decide +kernel) hmoved 0 (by decide +kernel) (by decide +kernel) (by decide +kernel)
  revert hlist
  decide +kernel

end ScriptCore.ScopeGraph.Session

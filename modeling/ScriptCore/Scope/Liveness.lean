import ScriptCore.Data.Slots
import ScriptCore.Scope.Graph

/-!
# Live scopes

A scope lives as long as something holds it or one of its descendants: parent links hold, child lists
do not. Given the scopes that are held from outside, the live ones are those and their ancestors.
-/
namespace ScriptCore.ScopeGraph

variable (g : ScopeGraph)

abbrev Marks := Slots Unit

def Marks.has (m : Marks) (s : ScopeId) : Bool := (m.get? s).isSome

/-- Mark a scope and its ancestors, up to `fuel` of them. Above a marked scope all are marked already. -/
def markWithin : Nat → ScopeId → Marks → Marks
  | 0, _, m => m
  | fuel + 1, s, m =>
    if m.has s then m
    else
      let m := m.set s ()
      match g.parent? s with
      | some p => markWithin fuel p m
      | none => m

/-- The scopes that live while `holders` are held: those and their ancestors. -/
def live (holders : List ScopeId) : Marks :=
  holders.foldl (fun m s => g.markWithin g.size s m) ∅

def isLive (holders : List ScopeId) (s : ScopeId) : Bool := (g.live holders).has s

/-- The live children of a scope in the order of attachment. -/
def liveChildren (holders : List ScopeId) (s : ScopeId) : List ScopeId :=
  let live := g.live holders
  (g.get s).children.toList.filter live.has

/-! ## What is live -/

/-- The parent links of every scope come to an end. -/
def Grounded : Prop := ∀ s, g.ancestorsWithin (g.size + 1) s = g.ancestorsWithin g.size s

theorem Marks.has_empty (s : ScopeId) : (∅ : Marks).has s = false := by simp [Marks.has]

theorem Marks.has_set (m : Marks) (s a : ScopeId) :
    Marks.has (m.set s ()) a = (decide (s = a) || m.has a) := by
  by_cases h : s = a <;> simp [Marks.has, Slots.get?_set, h]

/-- Every parent of a marked scope is marked. -/
def Closed (m : Marks) : Prop := ∀ s p, m.has s = true → g.parent? s = some p → m.has p = true

variable {g}

/-- In closed marks the ancestors of a marked scope are marked. -/
theorem Closed.has_of_mem {m : Marks} (hm : g.Closed m) {fuel : Nat} {s a : ScopeId}
    (hs : m.has s = true) (ha : a ∈ g.ancestorsWithin fuel s) : m.has a = true := by
  induction fuel generalizing s with
  | zero => simp [ancestorsWithin] at ha
  | succ fuel ih =>
    simp only [ancestorsWithin, List.mem_cons] at ha
    cases ha with
    | inl ha => rw [ha]; exact hs
    | inr ha =>
      cases hp : g.parent? s with
      | none => simp [hp] at ha
      | some p =>
        rw [hp] at ha
        exact ih (hm s p hs hp) ha

/-- Marking upwards from `s` restores closedness where only the mark of `s` itself was missing, and adds
the marks of `s` and its ancestors. -/
theorem markWithin_spec {fuel : Nat} {s : ScopeId} {m : Marks}
    (hm : ∀ x p, m.has x = true → g.parent? x = some p → m.has p = true ∨ p = s)
    (hs : g.ancestorsWithin (fuel + 1) s = g.ancestorsWithin fuel s) :
    g.Closed (g.markWithin fuel s m) ∧ ∀ a, (g.markWithin fuel s m).has a = true ↔
      m.has a = true ∨ a ∈ g.ancestorsWithin fuel s := by
  induction fuel generalizing s m with
  | zero => simp [ancestorsWithin] at hs
  | succ fuel ih =>
    rw [markWithin]
    by_cases hmark : m.has s = true
    · rw [if_pos hmark]
      have hclosed : g.Closed m := by
        intro x p hx hp
        cases hm x p hx hp with
        | inl h => exact h
        | inr h => rw [h]; exact hmark
      refine ⟨hclosed, fun a => ⟨Or.inl, fun h => ?_⟩⟩
      cases h with
      | inl h => exact h
      | inr h => exact hclosed.has_of_mem hmark h
    · rw [if_neg hmark]
      cases hp : g.parent? s with
      | none =>
        refine ⟨fun x p hx hxp => ?_, fun a => ?_⟩
        · rw [Marks.has_set, Bool.or_eq_true, decide_eq_true_eq] at hx ⊢
          cases hx with
          | inl hx => rw [← hx, hp] at hxp; cases hxp
          | inr hx =>
            cases hm x p hx hxp with
            | inl h => exact Or.inr h
            | inr h => exact Or.inl h.symm
        · simp only [Marks.has_set, Bool.or_eq_true, decide_eq_true_eq, ancestorsWithin, hp,
            List.mem_singleton]
          rw [or_comm, @eq_comm _ s a]
      | some p =>
        have hrest : g.ancestorsWithin (fuel + 1) p = g.ancestorsWithin fuel p := by
          rw [ancestorsWithin, ancestorsWithin, hp] at hs
          exact (List.cons.inj hs).2
        have hnext : ∀ x q, Marks.has (m.set s ()) x = true → g.parent? x = some q →
            Marks.has (m.set s ()) q = true ∨ q = p := by
          intro x q hx hxq
          rw [Marks.has_set, Bool.or_eq_true, decide_eq_true_eq] at hx ⊢
          cases hx with
          | inl hx =>
            rw [← hx, hp] at hxq
            exact Or.inr (Option.some.inj hxq).symm
          | inr hx =>
            cases hm x q hx hxq with
            | inl h => exact Or.inl (Or.inr h)
            | inr h => exact Or.inl (Or.inl h.symm)
        obtain ⟨hclosed, hmarks⟩ := ih hnext hrest
        refine ⟨hclosed, fun a => ?_⟩
        simp only [hmarks, Marks.has_set, Bool.or_eq_true, decide_eq_true_eq, ancestorsWithin, hp,
          List.mem_cons]
        rw [@eq_comm _ s a, or_assoc, or_left_comm]

/-- The live scopes are the held ones and their ancestors. -/
theorem has_live_iff (hg : g.Grounded) (holders : List ScopeId) (a : ScopeId) :
    (g.live holders).has a = true ↔ ∃ s ∈ holders, a ∈ g.ancestors s := by
  have fold : ∀ (holders : List ScopeId) (m : Marks), g.Closed m →
      ((holders.foldl (fun m s => g.markWithin g.size s m) m).has a = true ↔
        m.has a = true ∨ ∃ s ∈ holders, a ∈ g.ancestors s) := by
    intro holders
    induction holders with
    | nil => simp
    | cons s rest ih =>
      intro m hm
      obtain ⟨hclosed, hmarks⟩ := @markWithin_spec g g.size s m
        (fun x p hx hp => Or.inl (hm x p hx hp)) (hg s)
      rw [List.foldl_cons, ih _ hclosed, hmarks a]
      simp only [List.mem_cons, exists_eq_or_imp, ancestors, or_assoc]
  have hempty : g.Closed ∅ := by
    intro x p hx
    rw [Marks.has_empty] at hx
    cases hx
  rw [live, fold holders ∅ hempty, Marks.has_empty]
  simp

end ScriptCore.ScopeGraph

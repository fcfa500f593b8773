import ScriptCore.Proofs.Eval.Equivalence
import ScriptCore.Proofs.Eval.PatternNames

/-!
# Chains with optional links

A nest of member accesses and calls is a chain: a base and the links that lead on from it (`Tree.Nest`). Its
evaluation goes along the links, each of which sees what the ones before it came to (`Context.reach`). An
optional link that meets `undefined` or `null` is cut off by itself: nothing of it is evaluated, its value is
`undefined`, and the chain goes on from there. So it takes optional links all the way for a chain to survive
a cut, and where none is cut the marks make no difference (`Evaluator.chain_evaluated`).
-/
namespace ScriptCore

/-- A member access or a call in a chain, by its node. -/
inductive Link where
  | access (node : NodeId)
  | call (node : NodeId)

/-- How far a chain has come. -/
inductive Stop where
  /-- to a value, and the receiver that a call of it gets -/
  | at (value receiver : Value)
  /-- to an access that was cut off, which takes the call of the accessed function along -/
  | cutOff

namespace Stop

/-- The value that a chain has come to. -/
def value : Stop → Value
  | .at value _ => value
  | .cutOff => .undefined

/-- The function and the receiver of a call from here, if there is a call at all. -/
def callee? : Stop → Option (Value × Value)
  | .at value receiver => some (value, receiver)
  | .cutOff => none

end Stop

namespace Link

/-- The node of a link. -/
def node : Link → NodeId
  | .access node | .call node => node

/-- Where a chain is after a link that was cut off. -/
def cut : Link → Stop
  | .access _ => .cutOff
  | .call _ => .at .undefined .undefined

theorem cut_value (link : Link) : link.cut.value = .undefined := by cases link <;> rfl

end Link

/-- Whether a link is the call of an access that was cut off. -/
def Stop.leavesOut : Stop → Link → Bool
  | .cutOff, .call _ => true
  | _, _ => false

/-- A node is a chain of links from a base, which is neither an access nor a call. -/
inductive Tree.Nest (t : Tree) : NodeId → NodeId → List Link → Prop
  | base {n : NodeId} (haccess : t.tag n ≠ "MemberExpression") (hcall : t.tag n ≠ "CallExpression") : Nest t n n []
  | access {n object base : NodeId} {links : List Link} (htag : t.tag n = "MemberExpression")
    (hobject : t.child? n "object" = some object) (h : Nest t object base links) :
    Nest t n base (links ++ [.access n])
  | call {n callee base : NodeId} {links : List Link} (htag : t.tag n = "CallExpression")
    (hcallee : t.child? n "callee" = some callee) (h : Nest t callee base links) :
    Nest t n base (links ++ [.call n])

/-- A chain expression around a nest. -/
structure Tree.IsChain (t : Tree) (n x base : NodeId) (links : List Link) : Prop where
  tag : t.tag n = "ChainExpression"
  expression : t.child? n "expression" = some x
  nest : t.Nest x base links

/-- A link does the same as another one, but is not optional. -/
def Tree.Unmarked (t : Tree) : Link → Link → Prop
  | .access n, .access n' => t.tag n' = t.tag n ∧ t.child? n' "property" = t.child? n "property" ∧
      t.flag n' "computed" = t.flag n "computed" ∧ t.flag n' "optional" = false
  | .call n, .call n' => t.present n' "arguments" = t.present n "arguments" ∧ t.flag n' "optional" = false
  | _, _ => False

namespace Context

variable (c : Context)

/-- Whether a link is cut off: it is optional and meets `undefined` or `null`. -/
def cuts : Link → Stop → Bool
  | .access n, stop => stop.value.isNullish && c.tree.flag n "optional"
  | .call n, .at function _ => function.isNullish && c.tree.flag n "optional"
  | .call _, .cutOff => false

/-- Go along a link. The call of an access that was cut off is left out. -/
def follow (s : ScopeId) (stop : Stop) (link : Link) : Eval Stop :=
  if c.cuts link stop then pure link.cut
  else
    match link, stop with
    | .access n, stop => do
      let key ← c.propertyKey n "property" s
      let value ← Eval.checks fun w => w.getProperty stop.value key
      pure (.at value stop.value)
    | .call n, .at function receiver => do
      let args ← c.arguments s #[] (c.tree.present n "arguments")
      let value ← c.call function receiver args
      pure (.at value .undefined)
    | .call _, .cutOff => pure (.at .undefined .undefined)

/-- Go along links, one after the other. -/
def followAll (s : ScopeId) (stop : Stop) (links : List Link) : Eval Stop := links.foldlM (c.follow s) stop

/-- Evaluate a base and go along links from its value. -/
def reach (s : ScopeId) (base : NodeId) (links : List Link) : Eval Stop := do
  let value ← c.eval base s
  c.followAll s (.at value .undefined) links

/-- Whether links get past a cut before them: each is optional, or the call that is left out. -/
def survives : Stop → List Link → Bool
  | _, [] => true
  | stop, link :: rest => (stop.leavesOut link || c.tree.flag link.node "optional") && survives link.cut rest

theorem followAll_append (s : ScopeId) (stop : Stop) (links rest : List Link) :
    c.followAll s stop (links ++ rest) = c.followAll s stop links >>= fun stop => c.followAll s stop rest := by
  simp only [followAll, List.foldlM_append]

theorem reach_append (s : ScopeId) (base : NodeId) (links rest : List Link) :
    c.reach s base (links ++ rest) = c.reach s base links >>= fun stop => c.followAll s stop rest := by
  simp only [reach, followAll_append, bind_assoc]

theorem reach_concat (s : ScopeId) (base : NodeId) (links : List Link) (link : Link) :
    c.reach s base (links ++ [link]) = c.reach s base links >>= fun stop => c.follow s stop link := by
  simp only [reach_append, followAll, List.foldlM_cons, List.foldlM_nil, bind_pure]

end Context

/-! ## A nest is evaluated along its links -/

namespace Context

variable {c : Context} {ev : Evaluator} {a : Activation} {n object callee : NodeId} {s : ScopeId}

theorem require_of_some {key : String} {child : NodeId} (h : c.tree.child? n key = some child) :
    c.require n key = pure child := by
  rw [require, h]

theorem follow_of_cuts {stop : Stop} {link : Link} (h : c.cuts link stop = true) :
    c.follow s stop link = pure link.cut := if_pos h

theorem follow_access_of_uncut {stop : Stop} (h : ¬ c.cuts (.access n) stop = true) :
    c.follow s stop (.access n) = (do
      let key ← c.propertyKey n "property" s
      let value ← Eval.checks fun w => w.getProperty stop.value key
      pure (.at value stop.value)) := if_neg h

theorem follow_call_of_uncut {function receiver : Value} (h : ¬ c.cuts (.call n) (.at function receiver) = true) :
    c.follow s (.at function receiver) (.call n) = (do
      let args ← c.arguments s #[] (c.tree.present n "arguments")
      let value ← c.call function receiver args
      pure (.at value .undefined)) := if_neg h

/-- What a member expression does once its base is known is to follow the access. -/
theorem memberExpression_eq (hobject : c.tree.child? n "object" = some object) :
    c.memberExpression n s = c.eval object s >>= fun base =>
      Stop.value <$> c.follow s (.at base .undefined) (.access n) := by
  rw [memberExpression, require_of_some hobject, pure_bind]
  refine bind_congr fun base => ?_
  by_cases hcut : c.cuts (.access n) (.at base .undefined) = true
  · rw [follow_of_cuts hcut]
    exact if_pos hcut
  · rw [follow_access_of_uncut hcut]
    refine (if_neg hcut).trans ?_
    simp only [map_eq_pure_bind, bind_assoc, pure_bind, Stop.value, bind_pure]

/-- A member callee is followed as an access is, the node of a failure aside. -/
theorem calleeOf_member (ev : Evaluator) (htag : c.tree.tag n = "MemberExpression")
    (hobject : c.tree.child? n "object" = some object) :
    (c.calleeOf n s).Like ev (c.eval object s >>= fun base =>
      Stop.callee? <$> c.follow s (.at base .undefined) (.access n)) := by
  have hmember : c.tree.is n "MemberExpression" = true := beq_iff_eq.mpr htag
  rw [calleeOf, if_pos hmember, require_of_some hobject]
  refine (Eval.Like.refl ev (c.eval object s)).bind fun base => ?_
  by_cases hcut : c.cuts (.access n) (.at base .undefined) = true
  · rw [follow_of_cuts hcut]
    exact Eval.like_of_eq (if_pos hcut)
  · rw [follow_access_of_uncut hcut]
    refine (Eval.like_of_eq (if_neg hcut)).trans ?_
    simp only [map_eq_pure_bind, bind_assoc, pure_bind]
    exact (Eval.Like.refl ev _).bind fun key => (Eval.like_raisedAt ev _ n).bind fun function => .refl ev _

theorem calleeOf_other (htag : c.tree.tag n ≠ "MemberExpression") :
    c.calleeOf n s = (fun function => some (function, .undefined)) <$> c.eval n s := by
  have hmember : ¬ c.tree.is n "MemberExpression" = true := mt beq_iff_eq.mp htag
  rw [calleeOf, if_neg hmember]
  rfl

/-- What a call expression does once its callee is known is to follow the call. -/
theorem callExpression_eq (hcallee : c.tree.child? n "callee" = some callee) :
    c.callExpression n s = c.calleeOf callee s >>= fun callee => Stop.value <$>
      c.follow s (callee.elim .cutOff fun pair => .at pair.1 pair.2) (.call n) := by
  rw [callExpression, require_of_some hcallee, pure_bind]
  refine bind_congr fun callee => ?_
  obtain _ | ⟨function, receiver⟩ := callee
  · rfl
  · simp only [Option.elim]
    by_cases hcut : c.cuts (.call n) (.at function receiver) = true
    · rw [follow_of_cuts hcut]
      exact if_pos hcut
    · rw [follow_call_of_uncut hcut]
      refine (if_neg hcut).trans ?_
      simp only [map_eq_pure_bind, bind_assoc, pure_bind, Stop.value, bind_pure]

/-- An access depends on the value that it starts from alone. -/
theorem follow_access (stop : Stop) :
    c.follow s stop (.access n) = c.follow s (.at stop.value .undefined) (.access n) := by
  cases stop <;> rfl

/-- A call has no receiver for the next call. -/
theorem callee?_follow_call (stop : Stop) : Stop.callee? <$> c.follow s stop (.call n) =
    (fun function => some (function, .undefined)) <$> Stop.value <$> c.follow s stop (.call n) := by
  cases stop with
  | cutOff => rfl
  | «at» function receiver =>
    simp only [follow]
    split
    · rfl
    · simp only [map_eq_pure_bind, bind_assoc, pure_bind, Stop.callee?, Stop.value]

theorem elim_callee? (stop : Stop) :
    (stop.callee?.elim Stop.cutOff fun pair => Stop.at pair.1 pair.2) = stop := by cases stop <;> rfl

/-- **A nest is evaluated along its links**, for its value as for the callee that it is in a call. -/
theorem like_reach (hmember : ev.rules.get? "MemberExpression" = some .memberExpression)
    (hcall : ev.rules.get? "CallExpression" = some .callExpression) {base : NodeId} {links : List Link}
    (h : a.tree.Nest n base links) (s : ScopeId) :
    ((ev.context a).eval n s).Like ev (Stop.value <$> (ev.context a).reach s base links) ∧
      ((ev.context a).calleeOf n s).Like ev (Stop.callee? <$> (ev.context a).reach s base links) := by
  induction h with
  | base haccess hcall =>
    rw [calleeOf_other haccess]
    simp only [reach, followAll, List.foldlM_nil, map_eq_pure_bind, bind_assoc, pure_bind, Stop.value,
      Stop.callee?, bind_pure]
    exact ⟨.refl ev _, .refl ev _⟩
  | @access n object base links htag hchild h ih =>
    have hobject : (ev.context a).tree.child? n "object" = some object := hchild
    have hinner {α : Type} (f : Stop → α) :
        ((ev.context a).eval object s >>= fun base =>
            f <$> (ev.context a).follow s (.at base .undefined) (.access n)).Like ev
          (f <$> (ev.context a).reach s base (links ++ [.access n])) := by
      refine (ih.1.bind fun base => .refl ev _).trans (Eval.like_of_eq ?_)
      rw [reach_concat, map_bind, map_eq_pure_bind, bind_assoc]
      refine bind_congr fun stop => ?_
      rw [pure_bind, ← follow_access]
    have hrule : ev.rules.get? (a.tree.tag n) = some .memberExpression := htag ▸ hmember
    have hvalue := (Eval.like_eval hrule s).trans (Eval.like_of_eq (memberExpression_eq hobject))
    exact ⟨hvalue.trans (hinner _), (calleeOf_member ev htag hobject).trans (hinner _)⟩
  | @call n callee base links htag hchild h ih =>
    have hcallee : (ev.context a).tree.child? n "callee" = some callee := hchild
    have hvalue : ((ev.context a).eval n s).Like ev
        (Stop.value <$> (ev.context a).reach s base (links ++ [.call n])) := by
      have hrule : ev.rules.get? (a.tree.tag n) = some .callExpression := htag ▸ hcall
      refine (Eval.like_eval hrule s).trans ((Eval.like_of_eq (callExpression_eq hcallee)).trans ?_)
      refine (ih.2.bind fun callee => .refl ev _).trans (Eval.like_of_eq ?_)
      rw [reach_concat]
      simp only [map_eq_pure_bind, bind_assoc, pure_bind, elim_callee?]
    refine ⟨hvalue, ?_⟩
    rw [calleeOf_other (by rw [show (ev.context a).tree.tag n = _ from htag]; decide)]
    refine (hvalue.map _).trans (Eval.like_of_eq ?_)
    have hfollow (stop : Stop) := callee?_follow_call (c := ev.context a) (n := n) (s := s) stop
    rw [reach_concat]
    simp only [map_bind, hfollow]

/-! ## Links that are cut off -/

/-- A link of a chain, with the links after it, meets what the links before it came to. -/
def Meets (ev : Evaluator) (c : Context) (s : ScopeId) (base : NodeId) (links : List Link) (w : World)
    (link : Link) (after : List Link) (stop : Stop) (w₁ : World) : Prop :=
  ∃ before, links = before ++ link :: after ∧ (c.reach s base before w).ComesTo ev (some (.ok stop, w₁))

/-- A chain goes on after a cut, with nothing done. -/
theorem reach_of_cut {base : NodeId} {links after : List Link} {link : Link} {stop : Stop} {w w₁ : World}
    (hmeets : c.Meets ev s base links w link after stop w₁) (hcut : c.cuts link stop = true) :
    (c.reach s base links w).Like ev (c.followAll s link.cut after w₁) := by
  obtain ⟨before, rfl, hbefore⟩ := hmeets
  rw [reach_append]
  refine (hbefore.like_andThen _).trans ?_
  rw [followAll, List.foldlM_cons, follow_of_cuts hcut, pure_bind]
  exact .refl ev _

/-- After a cut, an optional link is cut off as well. -/
theorem follow_of_passes {stop : Stop} {link : Link} (hstop : stop.value = .undefined)
    (h : (stop.leavesOut link || c.tree.flag link.node "optional") = true) :
    c.follow s stop link = pure link.cut := by
  cases link with
  | access n =>
    have hflag : c.tree.flag n "optional" = true := by cases stop <;> exact h
    exact follow_of_cuts (by rw [cuts, hstop, hflag]; rfl)
  | call n =>
    cases stop with
    | cutOff => rfl
    | «at» function receiver =>
      obtain rfl : function = .undefined := hstop
      exact follow_of_cuts h

/-- After a cut, a link that is not optional comes to no value. -/
theorem follow_of_not_passes {stop : Stop} {link : Link} (hstop : stop.value = .undefined)
    (h : (stop.leavesOut link || c.tree.flag link.node "optional") = false) {w w' : World} {stop' : Stop} :
    ¬ (c.follow s stop link w).ComesTo ev (some (.ok stop', w')) := by
  obtain ⟨hcall, hflag⟩ := Bool.or_eq_false_iff.mp h
  intro hcomes
  cases link with
  | access n =>
    have huncut : ¬ c.cuts (.access n) stop = true := by
      rw [cuts, show c.tree.flag n "optional" = false from hflag, Bool.and_false]
      exact Bool.false_ne_true
    rw [follow_access_of_uncut huncut, hstop] at hcomes
    obtain ⟨key, w₁, -, hget⟩ := Computation.comesTo_andThen_ok hcomes
    cases hget
  | call n =>
    cases stop with
    | cutOff => cases hcall
    | «at» function receiver =>
      obtain rfl : function = .undefined := hstop
      have huncut : ¬ c.cuts (.call n) (.at .undefined receiver) = true := by
        rw [cuts, show c.tree.flag n "optional" = false from hflag, Bool.and_false]
        exact Bool.false_ne_true
      rw [follow_call_of_uncut huncut] at hcomes
      obtain ⟨args, w₁, -, hcalled⟩ := Computation.comesTo_andThen_ok hcomes
      obtain ⟨value, w₂, hcalled, -⟩ := Computation.comesTo_andThen_ok hcalled
      have hperform := Evaluator.comesTo_ask_iff.mp hcalled
      rw [Evaluator.exists_perform_eq_iff (m := ev.callValue c.depth .undefined receiver args) rfl] at hperform
      cases hperform

/-- A chain comes to a value after a cut only if all the links pass, and then it is `undefined` and nothing is
done. -/
theorem followAll_of_cut (ev : Evaluator) {stop : Stop} (links : List Link) (hstop : stop.value = .undefined)
    (s : ScopeId) (w : World) :
    (c.survives stop links = true →
        ∃ stop', c.followAll s stop links w = .done (.ok stop') w ∧ stop'.value = .undefined) ∧
      (c.survives stop links = false →
        ∀ stop' w', ¬ (c.followAll s stop links w).ComesTo ev (some (.ok stop', w'))) := by
  induction links generalizing stop with
  | nil => exact ⟨fun _ => ⟨stop, rfl, hstop⟩, nofun⟩
  | cons link rest ih =>
    have hall : c.followAll s stop (link :: rest) = c.follow s stop link >>= fun next => c.followAll s next rest :=
      List.foldlM_cons
    obtain ⟨ihon, ihoff⟩ := @ih link.cut link.cut_value
    rw [survives]
    cases hpasses : stop.leavesOut link || c.tree.flag link.node "optional" with
    | true =>
      rw [hall, follow_of_passes hstop hpasses, pure_bind, Bool.true_and]
      exact ⟨ihon, ihoff⟩
    | false =>
      rw [Bool.false_and, hall]
      refine ⟨nofun, fun _ stop' w' hcomes => ?_⟩
      obtain ⟨next, w₁, hfollow, -⟩ := Computation.comesTo_andThen_ok hcomes
      exact follow_of_not_passes hstop hpasses hfollow

/-! ## Links that are not -/

/-- A link that is not cut off does what it does unmarked. -/
theorem follow_unmarked {link link' : Link} (h : c.tree.Unmarked link link') {stop : Stop}
    (huncut : c.cuts link stop = false) : c.follow s stop link' = c.follow s stop link := by
  have hneg : ¬ c.cuts link stop = true := by rw [huncut]; exact Bool.false_ne_true
  cases link with
  | access n =>
    cases link' with
    | call n' => exact h.elim
    | access n' =>
      obtain ⟨htag, hproperty, hcomputed, hflag⟩ := h
      have hneg' : ¬ c.cuts (.access n') stop = true := by
        rw [cuts, hflag, Bool.and_false]
        exact Bool.false_ne_true
      rw [follow_access_of_uncut hneg, follow_access_of_uncut hneg']
      simp only [propertyKey, require, htag, hproperty, hcomputed]
  | call n =>
    cases link' with
    | access n' => exact h.elim
    | call n' =>
      obtain ⟨hargs, hflag⟩ := h
      cases stop with
      | cutOff => rfl
      | «at» function receiver =>
        have hneg' : ¬ c.cuts (.call n') (.at function receiver) = true := by
          rw [cuts, hflag, Bool.and_false]
          exact Bool.false_ne_true
        rw [follow_call_of_uncut hneg, follow_call_of_uncut hneg', hargs]

/-- Links none of which is cut off do what they do unmarked. -/
theorem followAll_unmarked {links links' : List Link} (h : List.Forall₂ c.tree.Unmarked links links')
    {stop : Stop} {w : World} (huncut : ∀ before link after stop' w', links = before ++ link :: after →
      (c.followAll s stop before w).ComesTo ev (some (.ok stop', w')) → c.cuts link stop' = false) :
    (c.followAll s stop links w).Like ev (c.followAll s stop links' w) := by
  induction h generalizing stop w with
  | nil => exact .refl ev _
  | @cons link link' links links' hlink _ ih =>
    have hfirst : c.cuts link stop = false := huncut [] link links stop w rfl (.done _ w)
    rw [followAll, followAll, List.foldlM_cons, List.foldlM_cons, follow_unmarked hlink hfirst]
    refine (Computation.Like.refl ev _).andThen fun next w₁ hnext => ih fun before other after stop' w' heq hcomes =>
      huncut (link :: before) other after stop' w' (by rw [heq]; rfl) ?_
    rw [followAll, List.foldlM_cons]
    exact Computation.comesTo_andThen_iff.mpr (Or.inl ⟨next, w₁, hnext, hcomes⟩)

theorem reach_unmarked {base : NodeId} {links links' : List Link} {w : World}
    (h : List.Forall₂ c.tree.Unmarked links links')
    (huncut : ∀ link after stop w₁, c.Meets ev s base links w link after stop w₁ → c.cuts link stop = false) :
    (c.reach s base links w).Like ev (c.reach s base links' w) := by
  refine (Computation.Like.refl ev (c.eval base s w)).andThen fun value w₁ hvalue =>
    followAll_unmarked h fun before link after stop w₂ heq hcomes =>
      huncut link after stop w₂ ⟨before, heq, ?_⟩
  exact Computation.comesTo_andThen_iff.mpr (Or.inl ⟨value, w₁, hvalue, hcomes⟩)

/-! ## Chain expressions -/

/-- A chain expression is evaluated along the links of the nest in it. -/
theorem chain_like (hchain : ev.rules.get? "ChainExpression" = some .chainExpression)
    (hmember : ev.rules.get? "MemberExpression" = some .memberExpression)
    (hcall : ev.rules.get? "CallExpression" = some .callExpression) {x base : NodeId} {links : List Link}
    (h : a.tree.IsChain n x base links) (s : ScopeId) :
    ((ev.context a).eval n s).Like ev (Stop.value <$> (ev.context a).reach s base links) := by
  obtain ⟨htag, hexpression, hnest⟩ := h
  have hchild : (ev.context a).tree.child? n "expression" = some x := hexpression
  have hmeaning : (ev.context a).chainExpression n s = (ev.context a).eval x s := by
    rw [chainExpression, require_of_some hchild, pure_bind]
  have hrule : ev.rules.get? (a.tree.tag n) = some .chainExpression := htag ▸ hchain
  have hinner := (like_reach hmember hcall hnest s).1
  exact (Eval.like_eval hrule s).trans ((Eval.like_of_eq hmeaning).trans hinner)

end Context

namespace Evaluator

variable {ev : Evaluator} {a : Activation} {n x base : NodeId} {links : List Link}

/-- **Each optional link is cut off by itself.** If a link of a chain is optional and meets `undefined` or
`null`, then nothing of it is evaluated, and the chain goes on from `undefined`: if the links after it are all
optional, or the call of the access, nothing more is done and the chain comes to `undefined`; otherwise it
comes to no value. If no link is cut off, the chain does what it does with no link marked. -/
theorem chain_evaluated (hchain : ev.rules.get? "ChainExpression" = some .chainExpression)
    (hmember : ev.rules.get? "MemberExpression" = some .memberExpression)
    (hcall : ev.rules.get? "CallExpression" = some .callExpression) (h : a.tree.IsChain n x base links)
    (s : ScopeId) (w : World) :
    (∀ link after stop w₁, (ev.context a).Meets ev s base links w link after stop w₁ →
      (ev.context a).cuts link stop = true →
        (ev.context a).follow s stop link w₁ = .done (.ok link.cut) w₁ ∧ link.cut.value = .undefined ∧
        (∀ result, (∃ steps, (ev.perform steps (.eval a n s) w).map unplaced = .ofEnd result) ↔
          ((Stop.value <$> (ev.context a).followAll s link.cut after) w₁).Yields ev result) ∧
        ((ev.context a).survives link.cut after = true →
          (∃ stop', (ev.context a).followAll s link.cut after w₁ = .done (.ok stop') w₁) ∧
          ∃ steps, ev.perform steps (.eval a n s) w = .ended (.ok .undefined, w₁)) ∧
        ((ev.context a).survives link.cut after = false →
          ∀ steps value w', ev.perform steps (.eval a n s) w ≠ .ended (.ok value, w'))) ∧
    ∀ n' x' links', a.tree.IsChain n' x' base links' → List.Forall₂ a.tree.Unmarked links links' →
      (∀ link after stop w₁, (ev.context a).Meets ev s base links w link after stop w₁ →
        (ev.context a).cuts link stop = false) → ev.SameEnd (.eval a n s) (.eval a n' s) w := by
  have hlike := Context.chain_like hchain hmember hcall h s
  refine ⟨fun link after stop w₁ hmeets hcut => ?_, fun n' x' links' h' hunmarked huncut => ?_⟩
  · have hrest : (Eval.ask (.eval a n s) w).Like ev
        ((Stop.value <$> (ev.context a).followAll s link.cut after) w₁) :=
      (hlike w).trans ((Context.reach_of_cut hmeets hcut).andThen fun _ _ _ => .refl ev _)
    have hvalue (value : Value) (w' : World) : (∃ steps, ev.perform steps (.eval a n s) w = .ended (.ok value, w')) ↔
        ((Stop.value <$> (ev.context a).followAll s link.cut after) w₁).ComesTo ev (some (.ok value, w')) := by
      rw [← hrest.comesTo_ok_iff, comesTo_ask_iff]
      rfl
    obtain ⟨hon, hoff⟩ := Context.followAll_of_cut (c := ev.context a) ev after link.cut_value s w₁
    refine ⟨by rw [Context.follow_of_cuts hcut]; rfl, link.cut_value, fun result => ?_, fun hsurvives => ?_,
      fun hfails steps value w' hend => ?_⟩
    · rw [← yields_ask_iff]
      exact hrest result
    · obtain ⟨stop', hdone, hstop'⟩ := hon hsurvives
      refine ⟨⟨stop', hdone⟩, (hvalue _ _).mpr ?_⟩
      rw [← hstop']
      exact Computation.comesTo_andThen_iff.mpr (Or.inl ⟨stop', w₁, hdone ▸ .done _ w₁, .done _ w₁⟩)
    · obtain ⟨stop', w₂, hcomes, -⟩ := Computation.comesTo_andThen_ok ((hvalue value w').mp ⟨steps, hend⟩)
      exact hoff hfails stop' w₂ hcomes
  · have hlike' := Context.chain_like hchain hmember hcall h' s
    refine sameEnd_of_like ((hlike w).trans (.trans ?_ (hlike' w).symm))
    exact (Context.reach_unmarked hunmarked huncut).andThen fun _ _ _ => .refl ev _

/-- `"ab"?.length`, `"ab".length` and `null?.length?.length`, at the nodes 3, 5 and 9. -/
def lengthChains : Activation where
  tree :=
    { nodes := #[⟨"Literal", [("value", .str "ab")]⟩, ⟨"Identifier", [("name", .str "length")]⟩,
        ⟨"MemberExpression", [("object", .node 0), ("property", .node 1), ("optional", .bool true)]⟩,
        ⟨"ChainExpression", [("expression", .node 2)]⟩,
        ⟨"MemberExpression", [("object", .node 0), ("property", .node 1)]⟩,
        ⟨"ChainExpression", [("expression", .node 4)]⟩,
        ⟨"Literal", [("value", .null)]⟩,
        ⟨"MemberExpression", [("object", .node 6), ("property", .node 1), ("optional", .bool true)]⟩,
        ⟨"MemberExpression", [("object", .node 7), ("property", .node 1), ("optional", .bool true)]⟩,
        ⟨"ChainExpression", [("expression", .node 8)]⟩]
      root := 3 }
  links := .start 3 0
  depth := 0

theorem chain_evaluated_lengths : standard.SameEnd (.eval lengthChains 3 0) (.eval lengthChains 5 0) {} ∧
    ∃ steps, standard.perform steps (.eval lengthChains 9 0) {} = .ended (.ok .undefined, {}) := by
  have hliteral : standard.rules.get? "Literal" = some .literal := by
    rw [standard_rules]
    exact RuleTable.get?_default ("Literal", _) (by simp)
  have hreach (n : NodeId) (value : Value) (hn : lengthChains.tree.tag n = "Literal")
      (hvalue : (standard.context lengthChains).literal n 0 {} = .done (.ok value) {}) :
      ((standard.context lengthChains).reach 0 n [] {}).ComesTo standard (some (.ok (.at value .undefined), {})) := by
    have hmeaning : (Rule.literal.meaning standard.host (standard.context lengthChains) n 0 {}).ComesTo standard
        (some (.ok value, {})) := by
      rw [show Rule.literal.meaning standard.host (standard.context lengthChains) n 0 {} = _ from hvalue]
      exact .done _ _
    have hbase := (Eval.like_eval (hn ▸ hliteral) 0 {}).comesTo_ok_iff.mpr hmeaning
    exact Computation.comesTo_andThen_iff.mpr (Or.inl ⟨value, {}, hbase, .done _ _⟩)
  have hrules : standard.rules.get? "ChainExpression" = some .chainExpression ∧
      standard.rules.get? "MemberExpression" = some .memberExpression ∧
      standard.rules.get? "CallExpression" = some .callExpression := by
    rw [standard_rules]
    exact ⟨RuleTable.get?_default ("ChainExpression", _) (by simp),
      RuleTable.get?_default ("MemberExpression", _) (by simp),
      RuleTable.get?_default ("CallExpression", _) (by simp)⟩
  have hmarked : lengthChains.tree.IsChain 3 2 0 [.access 2] :=
    ⟨rfl, rfl, .access rfl rfl (.base (by decide) (by decide))⟩
  have hunmarked : lengthChains.tree.IsChain 5 4 0 [.access 4] :=
    ⟨rfl, rfl, .access rfl rfl (.base (by decide) (by decide))⟩
  have hboth : lengthChains.tree.IsChain 9 8 6 [.access 7, .access 8] :=
    ⟨rfl, rfl, .access rfl rfl (.access rfl rfl (.base (by decide) (by decide)))⟩
  constructor
  · have hsame : lengthChains.tree.Unmarked (.access 2) (.access 4) := ⟨rfl, rfl, rfl, rfl⟩
    refine (chain_evaluated hrules.1 hrules.2.1 hrules.2.2 hmarked 0 {}).2 5 4 _ hunmarked (.cons hsame .nil)
      fun link after stop w₁ ⟨before, heq, hcomes⟩ => ?_
    obtain ⟨rfl, heq⟩ | ⟨rest, -, hrest⟩ := List.cons_eq_append_iff.mp heq
    · cases heq
      cases hcomes.unique (hreach 0 (.str "ab") rfl rfl)
      rfl
    · exact absurd hrest (by simp)
  · obtain ⟨-, -, -, hon, -⟩ := (chain_evaluated hrules.1 hrules.2.1 hrules.2.2 hboth 0 {}).1 (.access 7) [.access 8] _
      {} ⟨[], rfl, hreach 6 .null rfl rfl⟩ rfl
    exact (hon rfl).2

/-- `a?.b.c`. -/
def halfOptionalChain : Json :=
  .ofNode "ChainExpression" [("expression", .ofNode "MemberExpression" [
    ("object", .ofNode "MemberExpression" [("object", .ofName "a"), ("property", .ofName "b"),
      ("optional", .bool true)]),
    ("property", .ofName "c")])]

/-- Whether a run fails for a cause. -/
def failsFor (cause : Cause) : Run (Except Abrupt Value × World) → Bool
  | .ended (.error (.failure error), _) => error.cause == cause
  | _ => false

theorem exists_of_failsFor {cause : Cause} {run : Run (Except Abrupt Value × World)}
    (h : failsFor cause run = true) : ∃ error w, run = .ended (.error (.failure error), w) ∧ error.cause = cause := by
  unfold failsFor at h
  split at h
  next error w => exact ⟨error, w, rfl, beq_iff_eq.mp h⟩
  · cases h

/-- An optional link that meets `undefined` does not keep the chain from failing at the next link. -/
theorem optional_link_fails : ∃ t base error w w', Tree.ofJson halfOptionalChain = .ok t ∧
    t.IsChain t.root 4 base [.access 2, .access 4] ∧ t.flag 2 "optional" = true ∧
    ((standard.context ⟨t, .start t.root 0, 0⟩).Meets standard 0 base [.access 2, .access 4] {} (.access 2)
      [.access 4] (.at .undefined .undefined) w) ∧
    standard.perform 40 (.eval ⟨t, .start t.root 0, 0⟩ t.root 0) {} = .ended (.error (.failure error), w') ∧
    error.cause = cannotRead "c" .undefined := by
  obtain ⟨t, ht, hcheck⟩ := Tree.exists_ofJson (j := halfOptionalChain)
    (p := fun t => t.tag t.root == "ChainExpression" && t.child? t.root "expression" == some 4 &&
      t.tag 4 == "MemberExpression" && t.child? 4 "object" == some 2 && t.tag 2 == "MemberExpression" &&
      t.child? 2 "object" == some 0 && t.tag 0 == "Identifier" && t.identifierName? 0 == some "a" &&
      t.flag 2 "optional" &&
      failsFor (cannotRead "c" .undefined) (standard.perform 40 (.eval ⟨t, .start t.root 0, 0⟩ t.root 0) {}))
    (by decide +kernel)
  simp only [Bool.and_eq_true, beq_iff_eq] at hcheck
  obtain ⟨⟨⟨⟨⟨⟨⟨⟨⟨htag, hexpression⟩, houter⟩, hobject⟩, hinner⟩, hbase⟩, hname⟩, hidentifier⟩, hflag⟩, hfails⟩ :=
    hcheck
  obtain ⟨error, w', hrun, hcause⟩ := exists_of_failsFor hfails
  have hnest : t.Nest 4 0 [.access 2, .access 4] :=
    .access houter hobject (.access hinner hbase (.base (by rw [hname]; decide) (by rw [hname]; decide)))
  refine ⟨t, 0, error, {}, w', ht, ⟨htag, hexpression, hnest⟩, hflag, ⟨[], rfl, ?_⟩, hrun, hcause⟩
  have hmeaning : (Rule.identifier.meaning standard.host (standard.context ⟨t, .start t.root 0, 0⟩) 0 0 {}).ComesTo
      standard (some (.ok .undefined, {})) := by
    rw [show Rule.identifier.meaning standard.host (standard.context ⟨t, .start t.root 0, 0⟩) 0 0 {} =
      (standard.context ⟨t, .start t.root 0, 0⟩).identifier 0 0 {} from rfl, Context.identifier,
      show (standard.context ⟨t, .start t.root 0, 0⟩).tree.identifierName? 0 = some "a" from hidentifier]
    exact .done _ _
  have hrule : standard.rules.get? (t.tag 0) = some .identifier := by
    rw [standard_rules, hname]
    exact RuleTable.get?_default ("Identifier", _) (by simp)
  have hcomes := (Eval.like_eval (a := ⟨t, .start t.root 0, 0⟩) hrule 0 {}).comesTo_ok_iff.mpr hmeaning
  exact Computation.comesTo_andThen_iff.mpr (Or.inl ⟨.undefined, {}, hcomes, .done _ _⟩)

end Evaluator

end ScriptCore

import ScriptCore.Proofs.Eval.Orderly

/-!
# Orderly functions

A grammatical function node makes a sound closure: its body and its parameters are grammatical, and the
parameters lie outside the body. So the closures of a world stay sound while evaluations make new ones
and give them names.
-/
namespace ScriptCore

/-- A function node with a body and parameters as the grammar asks for them. -/
structure Tree.FunctionAt (t : Tree) (n : NodeId) : Prop where
  function : Tag.isFunction (t.tag n) = true
  body : ∃ body, t.child? n "body" = some body ∧ t.Derives .arrowBody body
  params : ∀ p ∈ t.present n "params", t.Derives (.patternElement true) p

namespace Tree

variable {t : Tree} {n : NodeId}

theorem functionAt_of_slots {k kb : NodeKind} (h : t.Derives k n)
    (hslots : Grammar.production t n k = some (Grammar.functionSlots kb))
    (hbody : ∀ {body}, t.Derives kb body → t.Derives .arrowBody body)
    (hfunction : Tag.isFunction (t.tag n) = true) : t.FunctionAt n := by
  have hholds := h.holds hslots
  obtain ⟨body, hchild, hhas⟩ : ∃ body, t.child? n "body" = some body ∧ t.Has n kb body :=
    hholds.one (by simp [Grammar.functionSlots])
  refine ⟨hfunction, ⟨body, hchild, hbody hhas.derives⟩, fun p hp => ?_⟩
  have hparam : t.Has n (.patternElement true) p := hholds.present (by simp [Grammar.functionSlots]) hp
  exact hparam.derives

/-- Function and arrow expressions. -/
theorem functionAt_of_expression (h : t.Derives .expression n)
    (htag : t.tag n = "FunctionExpression" ∨ t.tag n = "ArrowFunctionExpression") :
    t.FunctionAt n := by
  rcases htag with htag | htag
  · have hslots : Grammar.production t n .expression =
        some (Grammar.functionSlots (.block .ofFunction)) := by
      simp [Grammar.production, Grammar.expressionSlots, htag]
    exact functionAt_of_slots h hslots (fun hb => hb.arrowBody_of_block) (by rw [htag]; rfl)
  · have hslots : Grammar.production t n .expression = some (Grammar.functionSlots .arrowBody) := by
      simp [Grammar.production, Grammar.expressionSlots, htag]
    exact functionAt_of_slots h hslots id (by rw [htag]; rfl)

theorem functionAt_of_statement {j : Jumps} (h : t.Derives (.statement j) n)
    (htag : t.tag n = "FunctionDeclaration") : t.FunctionAt n := by
  have hslots : Grammar.production t n (.statement j) =
      some (Grammar.functionSlots (.block .ofFunction)) := by
    simp [Grammar.production, Grammar.statementSlots, htag]
  exact functionAt_of_slots h hslots (fun hb => hb.arrowBody_of_block) (by rw [htag]; rfl)

end Tree

namespace Closure

variable {t : Tree} {n : NodeId}

/-- What a node holds in its parameters lies outside its body. -/
theorem apart_of_param (ht : t.Proper) {body p below : NodeId} (hbody : t.child? n "body" = some body)
    (hp : p ∈ t.present n "params") (hbelow : t.Below p below) : ¬ t.Below body below := by
  obtain ⟨items, hfield, hitem⟩ := Tree.field?_of_present hp
  have hbodyField := Tree.field?_of_child? hbody
  have hne : p ≠ body := by
    rintro rfl
    have hkey := ht.key_eq hfield hbodyField hitem (by simp [Field.children])
    simp at hkey
  have hheld : p ∈ t.held n := List.mem_flatMap.mpr ⟨_, Tree.field?_mem hfield, hitem⟩
  have hbodyHeld : body ∈ t.held n :=
    List.mem_flatMap.mpr ⟨_, Tree.field?_mem hbodyField, by simp [Field.children]⟩
  exact ht.not_below_siblings hheld hbodyHeld hne hbelow

theorem paramOf_sound (ht : t.Proper) (h : t.FunctionAt n) {body p : NodeId}
    (hbody : t.child? n "body" = some body) (hp : p ∈ t.present n "params") :
    (paramOf t p).Sound t body := by
  have hparam := h.params p hp
  have happart {below : NodeId} (hbelow : t.Below p below) : ¬ t.Below body below :=
    apart_of_param ht hbody hp hbelow
  have hchild {child : NodeId} (hc : child ∈ t.childNodes p) : t.Below p child :=
    .single (Tree.childNodes_subset_held p hc)
  unfold paramOf
  split
  next htag =>
    have hslots : Grammar.production t p (.patternElement true) =
        some [⟨.one, "left", .pattern true⟩, ⟨.one, "right", .expression⟩] := by
      simp [Grammar.production, Grammar.patternSlots, Tree.is, htag]
    have hholds := hparam.holds hslots
    obtain ⟨left, hleft, hhas⟩ : ∃ left, t.child? p "left" = some left ∧ t.Has p (.pattern true) left :=
      hholds.one (by simp)
    simp only [hleft, Option.getD_some]
    refine ⟨hhas.derives, happart (hchild hhas.visited), fun d hd => ?_⟩
    have hdefault : t.Has p .expression d := hholds.required (by simp) hd
    exact ⟨hdefault.derives, happart (hchild hdefault.visited)⟩
  next htag =>
    have hslots : Grammar.production t p (.patternElement true) =
        some [⟨.one, "argument", .pattern true⟩] := by
      simp [Grammar.production, Tree.is, htag]
    obtain ⟨argument, hargument, hhas⟩ : ∃ argument, t.child? p "argument" = some argument ∧
        t.Has p (.pattern true) argument := (hparam.holds hslots).one (by simp)
    simp only [hargument, Option.getD_some]
    exact ⟨hhas.derives, happart (hchild hhas.visited), by simp⟩
  next hrest =>
    refine ⟨hparam.pattern_of_element ?_, happart .refl, by simp⟩
    simpa [Tree.is] using hrest

/-- The closure of a grammatical function node is sound. -/
theorem ofNode_sound (ht : t.Proper) (h : t.FunctionAt n) {scope : ScopeId} {name : Option String}
    {closure : Closure} (hclosure : ofNode t n scope name = .ok closure) : closure.Sound := by
  obtain ⟨body, hbody, hderives⟩ := h.body
  have hheld : body ∈ t.held n :=
    List.mem_flatMap.mpr ⟨_, Tree.field?_mem (Tree.field?_of_child? hbody), by simp [Field.children]⟩
  simp only [ofNode, hbody] at hclosure
  split at hclosure
  · cases hclosure
  · split at hclosure
    · cases hclosure
    · cases hclosure
      refine ⟨ht, h.function, hheld, hderives, fun param hparam => ?_⟩
      obtain ⟨p, hp, rfl⟩ := List.mem_map.mp hparam
      exact paramOf_sound ht h hbody hp

/-- Making it fails for what is not supported only. -/
theorem ofNode_error (h : t.FunctionAt n) {scope : ScopeId} {name : Option String} {cause : Cause}
    (hcause : ofNode t n scope name = .error cause) : cause.isStructural = false := by
  obtain ⟨body, hbody, -⟩ := h.body
  simp only [ofNode, hbody] at hcause
  split at hcause
  · cases hcause
    rfl
  · split at hcause
    · cases hcause
      rfl
    · cases hcause

end Closure

namespace Context

open Eval

variable {host : Host} {c : Context} {n : NodeId} {s : ScopeId} {j : Jumps}

theorem behaves_createClosure (ha : c.Sound) (h : c.tree.FunctionAt n) (name : Option String) :
    (c.createClosure n s name).Behaves host j := by
  have hclosure : (Eval.ofExcept (Closure.ofNode c.tree n s name)).Keeps (orderly host)
      Closure.Sound (j.Allows host) := by
    cases hnode : Closure.ofNode c.tree n s name with
    | ok closure => exact keeps_pure (Closure.ofNode_sound ha.tree h hnode)
    | error cause => exact keeps_fail (.of_cause (Closure.ofNode_error h hnode))
  exact Keeps.bind hclosure fun closure hsound => keeps_makes fun w hw =>
    ⟨World.Sound.newClosure hw hsound, trivial⟩

/-- A closure under a new name is as sound as before. -/
theorem named_sound {w : World} (hw : w.Sound) (name : String) (id : ClosureId) :
    (named w name id).2.Sound := by
  rw [named]
  split
  next closure hclosure =>
    split
    · have hsound := hw id closure hclosure
      exact hw.newClosure ⟨hsound.tree, hsound.function, hsound.held, hsound.body, hsound.params⟩
    · exact hw
  · exact hw

theorem behaves_evalNamed (ha : c.Sound) (h : c.At .expression n s) (name : Option String) :
    (c.evalNamed n s name).Behaves host j := by
  refine (behaves_eval ha h).bind fun value => ?_
  split
  next name id =>
    split
    · exact keeps_makes fun w hw => ⟨named_sound hw name id, trivial⟩
    · exact Eval.behaves_pure _
  · exact Eval.behaves_pure _

end Context

end ScriptCore

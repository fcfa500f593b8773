import Mathlib.Data.List.TakeWhile
import ScriptCore.Proofs.Eval.Passing

/-!
# Switch

A `switch` evaluates its discriminant, and then the tests of its cases in order up to the first that is strictly
equal to it (`Evaluator.Tested`). From the case of that test on, else from the first one without a test
(`Tree.Chosen`), it runs the statements of all cases to the end, or up to the first one that ends abruptly
(`Evaluator.RunsCases`): a `break` ends the `switch` normally, any other end is its own (`Evaluator.Switches`).
A `break` within a loop or another `switch` does not come to it.
-/
namespace ScriptCore

namespace Tree

/-- The test of a case; a hole has none. -/
def test? (t : Tree) (case : Option NodeId) : Option NodeId := case.bind fun case => t.child? case "test"

/-- The tests of a list of cases. -/
def tests (t : Tree) (cases : List (Option NodeId)) : List NodeId := cases.filterMap t.test?

/-- The statements of a list of cases, in a row. -/
def consequents (t : Tree) (cases : List (Option NodeId)) : List NodeId :=
  (cases.filterMap fun case => case).flatMap fun case => t.present case "consequent"

/-- The cases that are run: those from the selected one on, else those from the first default on. -/
inductive Chosen (t : Tree) (cases : List (Option NodeId)) :
    Option (List (Option NodeId)) → List (Option NodeId) → Prop
  | selected (chosen : List (Option NodeId)) : Chosen t cases (some chosen) chosen
  | default {before after : List (Option NodeId)} {case : NodeId} (hcases : cases = before ++ some case :: after)
    (hdefault : t.child? case "test" = none) (hfirst : ∀ m, some m ∈ before → t.child? m "test" ≠ none) :
    Chosen t cases none (some case :: after)
  | nothing (h : ∀ m, some m ∈ cases → t.child? m "test" ≠ none) : Chosen t cases none []

end Tree

namespace Evaluator

/-- No errand came to a value that is strictly equal to the discriminant. -/
def Differ (discriminant : Value) (errands : List Errand) : Prop :=
  ∀ errand ∈ errands, ∀ value, errand.outcome = .ok value → value.strictEquals discriminant = false

/-- The tests of the cases are evaluated in order, up to the first that is strictly equal to the discriminant, from
whose case on the cases are selected. -/
inductive Tested (ev : Evaluator) (a : Activation) (s : ScopeId) (discriminant : Value)
    (cases : List (Option NodeId)) (w : World) :
    List Errand → Except Abrupt (Option (List (Option NodeId))) → World → Prop
  | none {errands : List Errand} {w' : World} (htests : ev.Evaluates a s (a.tree.tests cases) w errands w')
    (hdiffer : Differ discriminant errands) : Tested ev a s discriminant cases w errands (.ok .none) w'
  | first (before after : List (Option NodeId)) (errands : List Errand) {case : Option NodeId} {test : NodeId}
    {value : Value} {w₁ w' : World} (hcases : cases = before ++ case :: after)
    (htests : ev.Evaluates a s (a.tree.tests before) w errands w₁) (hdiffer : Differ discriminant errands)
    (htest : a.tree.test? case = some test) (hperformed : Errand.Performed ev ⟨.eval a test s, w₁, .ok value, w'⟩)
    (hequal : value.strictEquals discriminant = true) :
    Tested ev a s discriminant cases w (errands ++ [⟨.eval a test s, w₁, .ok value, w'⟩])
      (.ok (some (case :: after))) w'
  | abrupt (before after : List (Option NodeId)) (errands : List Errand) {case : Option NodeId} {test : NodeId}
    {e : Abrupt} {w₁ w' : World} (hcases : cases = before ++ case :: after)
    (htests : ev.Evaluates a s (a.tree.tests before) w errands w₁) (hdiffer : Differ discriminant errands)
    (htest : a.tree.test? case = some test) (hperformed : Errand.Performed ev ⟨.eval a test s, w₁, .error e, w'⟩) :
    Tested ev a s discriminant cases w (errands ++ [⟨.eval a test s, w₁, .error e, w'⟩]) (.error e) w'

/-- The statements are run in order, all of them or up to the first that ends abruptly: after a `break` the outcome
is a normal one, otherwise it is the end of that statement. -/
inductive RunsCases (ev : Evaluator) (a : Activation) (s : ScopeId) (statements : List NodeId) (w : World) :
    List Errand → Except Abrupt Value → World → Prop
  | completed {errands : List Errand} {w' : World} (h : ev.Evaluates a s statements w errands w') :
    RunsCases ev a s statements w errands (.ok .undefined) w'
  | broke (before after : List NodeId) (errands : List Errand) {m : NodeId} {w₁ w' : World}
    (hstatements : statements = before ++ m :: after) (hbefore : ev.Evaluates a s before w errands w₁)
    (hperformed : Errand.Performed ev ⟨.eval a m s, w₁, .error .broke, w'⟩) :
    RunsCases ev a s statements w (errands ++ [⟨.eval a m s, w₁, .error .broke, w'⟩]) (.ok .undefined) w'
  | abrupt (before after : List NodeId) (errands : List Errand) {m : NodeId} {e : Abrupt} {w₁ w' : World}
    (hstatements : statements = before ++ m :: after) (hbefore : ev.Evaluates a s before w errands w₁)
    (hperformed : Errand.Performed ev ⟨.eval a m s, w₁, .error e, w'⟩) (he : e ≠ .broke) :
    RunsCases ev a s statements w (errands ++ [⟨.eval a m s, w₁, .error e, w'⟩]) (.error e) w'

/-- What comes before the cases of a `switch`: its discriminant, in the scope around it, and then a scope of its
own with the functions of all cases in it. -/
structure Opens (ev : Evaluator) (a : Activation) (n : NodeId) (s : ScopeId) (discriminant : Errand) (value : Value)
    (own : ScopeId) (given : Except Abrupt Unit) (w' : World) : Prop where
  child : ∃ m, a.tree.child? n "discriminant" = some m ∧ discriminant.task = .eval a m s
  performed : discriminant.Performed ev
  value : discriminant.outcome = .ok value
  scope : ∃ w₁, (ev.context a).blockScope n s discriminant.stop = .done (.ok own) w₁ ∧
    (ev.context a).instantiateCases own (a.tree.present n "cases") w₁ = .done given w'

/-- How a `switch` is performed. -/
inductive Switches (ev : Evaluator) (a : Activation) (n : NodeId) (s : ScopeId) (w : World) :
    List Errand → Except Abrupt Value → World → Prop
  | lacking (h : a.tree.child? n "discriminant" = none) : Switches ev a n s w []
    (.error ((Abrupt.of (.malformedNode (a.tree.tag n) "missing `discriminant`")).raisedAt n)) w
  | abrupt {m : NodeId} {e : Abrupt} {w' : World} (hchild : a.tree.child? n "discriminant" = some m)
    (hperformed : Errand.Performed ev ⟨.eval a m s, w, .error e, w'⟩) :
    Switches ev a n s w [⟨.eval a m s, w, .error e, w'⟩] (.error e) w'
  | unbound {discriminant : Errand} {value : Value} {own : ScopeId} {e : Abrupt} {w' : World}
    (hstart : discriminant.start = w) (hopens : ev.Opens a n s discriminant value own (.error e) w') :
    Switches ev a n s w [discriminant] (.error (e.raisedAt n)) w'
  | untested {discriminant : Errand} {value : Value} {own : ScopeId} {tests : List Errand} {e : Abrupt}
    {w₁ w' : World} (hstart : discriminant.start = w) (hopens : ev.Opens a n s discriminant value own (.ok ()) w₁)
    (htested : ev.Tested a own value (a.tree.children n "cases") w₁ tests (.error e) w') :
    Switches ev a n s w (discriminant :: tests) (.error e) w'
  | ran {discriminant : Errand} {value : Value} {own : ScopeId} {tests runs : List Errand}
    {selected : Option (List (Option NodeId))} {chosen : List (Option NodeId)} {outcome : Except Abrupt Value}
    {w₁ w₂ w' : World} (hstart : discriminant.start = w) (hopens : ev.Opens a n s discriminant value own (.ok ()) w₁)
    (htested : ev.Tested a own value (a.tree.children n "cases") w₁ tests (.ok selected) w₂)
    (hchosen : a.tree.Chosen (a.tree.children n "cases") selected chosen)
    (hruns : ev.RunsCases a own (a.tree.consequents chosen) w₂ runs outcome w') :
    Switches ev a n s w (discriminant :: (tests ++ runs)) outcome w'

variable {ev : Evaluator} {a : Activation} {n : NodeId} {s : ScopeId} {w w' : World} {errands : List Errand}

/-! ## Tests -/

theorem differ_nil (discriminant : Value) : Differ discriminant [] := List.forall_mem_nil _

theorem Differ.append {discriminant : Value} {others : List Errand} (h : Differ discriminant errands)
    (h' : Differ discriminant others) : Differ discriminant (errands ++ others) := fun errand hmem =>
  (List.mem_append.mp hmem).elim (h errand) (h' errand)

section Tests

variable {discriminant : Value} {before rest : List (Option NodeId)} {others : List Errand} {w₁ : World}
  {outcome : Except Abrupt (Option (List (Option NodeId)))}

/-- Cases whose tests differ from the discriminant come before those that are tested next. -/
theorem Tested.append (htests : ev.Evaluates a s (a.tree.tests before) w errands w₁)
    (hdiffer : Differ discriminant errands) (h : ev.Tested a s discriminant rest w₁ others outcome w') :
    ev.Tested a s discriminant (before ++ rest) w (errands ++ others) outcome w' := by
  have hmore {list : List (Option NodeId)} {errands' : List Errand} {w₂ : World}
      (h : ev.Evaluates a s (a.tree.tests list) w₁ errands' w₂) :
      ev.Evaluates a s (a.tree.tests (before ++ list)) w (errands ++ errands') w₂ := by
    rw [Tree.tests, List.filterMap_append]
    exact htests.append h
  cases h with
  | none htests' hdiffer' => exact .none (hmore htests') (hdiffer.append hdiffer')
  | first _ _ _ hcases htests' hdiffer' htest hperformed hequal =>
    rw [hcases, ← List.append_assoc, ← List.append_assoc]
    exact .first _ _ _ rfl (hmore htests') (hdiffer.append hdiffer') htest hperformed hequal
  | abrupt _ _ _ hcases htests' hdiffer' htest hperformed =>
    rw [hcases, ← List.append_assoc, ← List.append_assoc]
    exact .abrupt _ _ _ rfl (hmore htests') (hdiffer.append hdiffer') htest hperformed

theorem selectCase_testless {case : Option NodeId} (h : a.tree.test? case = none) :
    (ev.context a).selectCase discriminant s (case :: rest) = (ev.context a).selectCase discriminant s rest := by
  rw [Context.selectCase]
  split
  next test htest => cases htest.symm.trans h
  · rfl

theorem selectCase_tested {case : Option NodeId} {test : NodeId} (h : a.tree.test? case = some test) :
    (ev.context a).selectCase discriminant s (case :: rest) = (do
      let value ← (ev.context a).eval test s
      if value.strictEquals discriminant then pure (some (case :: rest))
      else (ev.context a).selectCase discriminant s rest) := by
  rw [Context.selectCase]
  split
  next test' htest =>
    cases htest.symm.trans h
    rfl
  next hnone => cases h.symm.trans hnone

theorem takes_selectCase_append (htests : ev.Evaluates a s (a.tree.tests before) w errands w₁)
    (hdiffer : Differ discriminant errands)
    (hrest : ((ev.context a).selectCase discriminant s rest w₁).Takes ev others outcome w') :
    ((ev.context a).selectCase discriminant s (before ++ rest) w).Takes ev (errands ++ others) outcome w' := by
  induction before generalizing w errands with
  | nil =>
    cases htests
    exact hrest
  | cons case before ih =>
    cases htest : a.tree.test? case with
    | none =>
      rw [Tree.tests, List.filterMap_cons_none htest] at htests
      rw [List.cons_append, selectCase_testless htest]
      exact ih htests hdiffer
    | some test =>
      rw [Tree.tests, List.filterMap_cons_some htest] at htests
      rw [List.cons_append, selectCase_tested htest, Context.takes_eval_then_iff]
      cases htests with
      | cons hperformed hothers =>
        obtain ⟨hfirst, hdiffer⟩ := List.forall_mem_cons.mp hdiffer
        refine Or.inr ⟨_, _, _, rfl, hperformed, ?_⟩
        rw [if_neg (by simp [hfirst _ rfl])]
        exact ih hothers hdiffer

theorem takes_selectCase_iff {cases : List (Option NodeId)} :
    ((ev.context a).selectCase discriminant s cases w).Takes ev errands outcome w' ↔
      ev.Tested a s discriminant cases w errands outcome w' := by
  constructor
  · intro h
    induction cases generalizing w errands with
    | nil =>
      rw [Context.selectCase] at h
      cases h
      exact .none (.nil _) (differ_nil _)
    | cons case rest ih =>
      cases htest : a.tree.test? case with
      | none =>
        rw [selectCase_testless htest] at h
        have htests : ev.Evaluates a s (a.tree.tests [case]) w [] w := by
          rw [Tree.tests, List.filterMap_cons_none htest]
          exact .nil w
        exact Tested.append htests (differ_nil _) (ih h)
      | some test =>
        rw [selectCase_tested htest, Context.takes_eval_then_iff] at h
        obtain ⟨e, rfl, rfl, hperformed⟩ | ⟨value, w₁, others, rfl, hperformed, h⟩ := h
        · exact .abrupt [] rest [] rfl (.nil w) (differ_nil _) htest hperformed
        · split at h
          next hequal =>
            cases h
            exact .first [] rest [] rfl (.nil w) (differ_nil _) htest hperformed hequal
          next hdiffer =>
            have htests : ev.Evaluates a s (a.tree.tests [case]) w [⟨.eval a test s, w, .ok value, w₁⟩] w₁ := by
              rw [Tree.tests, List.filterMap_cons_some htest]
              exact .cons hperformed (.nil w₁)
            have hfirst : Differ discriminant [⟨.eval a test s, w, .ok value, w₁⟩] := by
              simpa [Differ] using hdiffer
            exact Tested.append htests hfirst (ih h)
  · intro h
    cases h with
    | none htests hdiffer =>
      have hend : ((ev.context a).selectCase discriminant s [] w').Takes ev [] (.ok none) w' := .done _ _
      simpa using takes_selectCase_append htests hdiffer hend
    | first _ after _ hcases htests hdiffer htest hperformed hequal =>
      rw [hcases]
      refine takes_selectCase_append htests hdiffer ?_
      rw [selectCase_tested htest, Context.takes_eval_then_iff]
      refine Or.inr ⟨_, _, [], rfl, hperformed, ?_⟩
      rw [if_pos hequal]
      exact .done _ _
    | abrupt _ after _ hcases htests hdiffer htest hperformed =>
      rw [hcases]
      refine takes_selectCase_append htests hdiffer ?_
      rw [selectCase_tested htest, Context.takes_eval_then_iff]
      exact Or.inl ⟨_, rfl, rfl, hperformed⟩

end Tests

/-! ## Cases -/

/-- Whether a case is passed over when a default is looked for. -/
theorem defaultCase_eq (cases : List (Option NodeId)) : (ev.context a).defaultCase cases =
    cases.dropWhile fun case => case.all fun m => (a.tree.child? m "test").isSome := by
  rw [Context.defaultCase]
  congr 1
  funext case
  cases case <;> rfl

/-- The cases before the first default are dropped. -/
theorem chosen_iff (ev : Evaluator) {cases chosen : List (Option NodeId)} {selected : Option (List (Option NodeId))} :
    a.tree.Chosen cases selected chosen ↔ chosen = selected.getD ((ev.context a).defaultCase cases) := by
  have hall {list : List (Option NodeId)} (h : ∀ m, some m ∈ list → a.tree.child? m "test" ≠ none) :
      ∀ case ∈ list, (case.all fun m => (a.tree.child? m "test").isSome) = true := by
    rintro (_ | m) hmem
    · rfl
    · exact Option.isSome_iff_ne_none.mpr (h m hmem)
  constructor
  · intro h
    cases h with
    | selected chosen => rfl
    | default hcases hdefault hfirst =>
      rw [Option.getD_none, defaultCase_eq, hcases, List.dropWhile_append_of_pos (hall hfirst),
        List.dropWhile_cons_of_neg (by simp [hdefault])]
    | nothing h =>
      rw [Option.getD_none, defaultCase_eq, List.dropWhile_eq_nil_iff.mpr (hall h)]
  · rintro rfl
    cases selected with
    | some chosen => exact .selected chosen
    | none =>
      rw [Option.getD_none, defaultCase_eq]
      generalize hp : (fun case : Option NodeId => case.all fun m => (a.tree.child? m "test").isSome) = p
      have hpassed {m : NodeId} (h : p (some m) = true) : a.tree.child? m "test" ≠ none := by
        rw [← hp] at h
        exact Option.isSome_iff_ne_none.mp h
      cases hdrop : cases.dropWhile p with
      | nil => exact .nothing fun m hmem => hpassed (List.dropWhile_eq_nil_iff.mp hdrop _ hmem)
      | cons case after =>
        have hcase : ¬p case = true := by
          have hhead := List.dropWhile_get_zero_not p cases (by simp [hdrop])
          simpa [hdrop] using hhead
        have hcases : cases = cases.takeWhile p ++ case :: after := by rw [← hdrop, List.takeWhile_append_dropWhile]
        cases case with
        | none =>
          rw [← hp] at hcase
          exact absurd rfl hcase
        | some m =>
          refine .default hcases ?_ fun m' hmem => hpassed (List.mem_takeWhile_imp hmem)
          rw [← hp] at hcase
          simpa using hcase

/-- The statements of the cases that were run come before those that are run next. -/
theorem RunsCases.append {first rest : List NodeId} {others : List Errand} {w₁ : World}
    {outcome : Except Abrupt Value} (hfirst : ev.Evaluates a s first w errands w₁)
    (h : ev.RunsCases a s rest w₁ others outcome w') :
    ev.RunsCases a s (first ++ rest) w (errands ++ others) outcome w' := by
  cases h with
  | completed h => exact .completed (hfirst.append h)
  | broke _ _ _ hstatements hbefore hperformed =>
    rw [hstatements, ← List.append_assoc, ← List.append_assoc]
    exact .broke _ _ _ rfl (hfirst.append hbefore) hperformed
  | abrupt _ _ _ hstatements hbefore hperformed he =>
    rw [hstatements, ← List.append_assoc, ← List.append_assoc]
    exact .abrupt _ _ _ rfl (hfirst.append hbefore) hperformed he

theorem takes_runCases_append {first rest : List NodeId} {others : List Errand} {w₁ : World}
    {outcome : Except Abrupt Value} (hfirst : ev.Evaluates a s first w errands w₁)
    (hrest : ((ev.context a).runCases s rest w₁).Takes ev others outcome w') :
    ((ev.context a).runCases s (first ++ rest) w).Takes ev (errands ++ others) outcome w' := by
  induction hfirst with
  | nil w => exact hrest
  | @cons m _ value w _ _ _ hperformed _ ih =>
    rw [List.cons_append, Context.runCases, Eval.takes_catching_iff]
    exact ⟨[_], _, .ok value, _, rfl, Context.takes_eval_iff.mpr ⟨rfl, hperformed⟩, ih hrest⟩

theorem takes_runCases_iff {statements : List NodeId} {outcome : Except Abrupt Value} :
    ((ev.context a).runCases s statements w).Takes ev errands outcome w' ↔
      ev.RunsCases a s statements w errands outcome w' := by
  constructor
  · intro h
    induction statements generalizing w errands with
    | nil =>
      rw [Context.runCases] at h
      cases h
      exact .completed (.nil _)
    | cons m rest ih =>
      rw [Context.runCases, Eval.takes_catching_iff] at h
      obtain ⟨first, others, given, w₁, rfl, hfirst, h⟩ := h
      obtain ⟨rfl, hperformed⟩ := Context.takes_eval_iff.mp hfirst
      rcases given with e | value
      · by_cases he : e = .broke
        · cases he
          cases h
          exact .broke [] rest [] rfl (.nil w) hperformed
        · have hend : ((Eval.abrupt e : Eval Value) w₁).Takes ev others outcome w' := by
            cases e <;> first | exact h | exact absurd rfl he
          cases hend
          exact .abrupt [] rest [] rfl (.nil w) hperformed he
      · exact RunsCases.append (.cons hperformed (.nil w₁)) (ih h)
  · intro h
    cases h with
    | completed h =>
      have hend : ((ev.context a).runCases s [] w').Takes ev [] (.ok .undefined) w' := .done _ _
      simpa using takes_runCases_append h hend
    | broke _ _ _ hstatements hbefore hperformed =>
      rw [hstatements]
      refine takes_runCases_append hbefore ?_
      rw [Context.runCases, Eval.takes_catching_iff]
      exact ⟨[_], [], _, _, rfl, Context.takes_eval_iff.mpr ⟨rfl, hperformed⟩, .done _ _⟩
    | @abrupt _ _ _ _ e _ _ hstatements hbefore hperformed he =>
      rw [hstatements]
      refine takes_runCases_append hbefore ?_
      rw [Context.runCases, Eval.takes_catching_iff]
      refine ⟨[_], [], _, _, rfl, Context.takes_eval_iff.mpr ⟨rfl, hperformed⟩, ?_⟩
      cases e <;> first | exact .done _ _ | exact absurd rfl he

/-! ## The whole statement -/

theorem Tested.placed {discriminant : Value} {cases : List (Option NodeId)} {e : Abrupt}
    (h : ev.Tested a s discriminant cases w errands (.error e) w') : e.Placed := by
  cases h with
  | abrupt _ _ _ _ _ _ _ hperformed => exact placed_of_performed hperformed

theorem RunsCases.placed {statements : List NodeId} {e : Abrupt}
    (h : ev.RunsCases a s statements w errands (.error e) w') : e.Placed := by
  cases h with
  | abrupt _ _ _ _ _ hperformed _ => exact placed_of_performed hperformed

/-- An end that has a place is that of the node. -/
theorem mapError_of_placed {outcome : Except Abrupt Value} (h : ∀ e, outcome = .error e → e.Placed) :
    outcome.mapError (·.raisedAt n) = outcome := by
  cases outcome with
  | ok value => rfl
  | error e => exact congrArg Except.error (h e rfl n)

theorem Opens.steps {discriminant : Errand} {value : Value} {own : ScopeId} {given : Except Abrupt Unit}
    (h : ev.Opens a n s discriminant value own given w') (hstart : discriminant.start = w) :
    ∃ m w₁ w₂, a.tree.child? n "discriminant" = some m ∧ discriminant = ⟨.eval a m s, w, .ok value, w₁⟩ ∧
      Errand.Performed ev ⟨.eval a m s, w, .ok value, w₁⟩ ∧
      (ev.context a).blockScope n s w₁ = .done (.ok own) w₂ ∧
      (ev.context a).instantiateCases own (a.tree.present n "cases") w₂ = .done given w' := by
  obtain ⟨⟨m, hchild, htask⟩, hperformed, hvalue, w₂, hscope, hfunctions⟩ := h
  obtain ⟨task, start, outcome, w₁⟩ := discriminant
  cases hstart
  cases htask
  cases hvalue
  exact ⟨m, w₁, w₂, hchild, rfl, hperformed, hscope, hfunctions⟩

/-- **How a `switch` is performed.** -/
theorem performs_switch_iff {outcome : Except Abrupt Value}
    (hrule : ev.rules.get? (a.tree.tag n) = some .switchStatement) :
    ev.Performs (.eval a n s) w errands outcome w' ↔ ev.Switches a n s w errands outcome w' := by
  have hmeaning : Rule.meaning ev.host .switchStatement (ev.context a) n s =
      (ev.context a).switchStatement n s := rfl
  have htree : (ev.context a).tree = a.tree := rfl
  have hblock (w : World) : ∃ given w₁, (ev.context a).blockScope n s w = .done given w₁ := by
    obtain ⟨own, h⟩ := Site.blockScope_done (ev.context a) n s w
    exact ⟨_, h⟩
  have hopened {w w' : World} {e : Abrupt} : (ev.context a).blockScope n s w ≠ .done (.error e) w' := by
    obtain ⟨own, w₁, heq⟩ := Site.blockScope_done (ev.context a) n s w
    rw [heq]
    nofun
  have hfunctions (own : ScopeId) (w : World) : ∃ given w₁,
      (ev.context a).instantiateCases own (a.tree.present n "cases") w = .done given w₁ := by
    rw [Context.instantiateCases_eq]
    exact Context.instantiateFunctions_done _ _ _ w
  rw [performs_eval_iff hrule, hmeaning]
  -- the steps of the rule, one after the other
  simp only [Context.switchStatement, Context.takes_require_iff, Context.takes_eval_then_iff, htree,
    Eval.takes_immediate_iff (hblock _)]
  simp only [Eval.takes_immediate_iff (hfunctions _ _)]
  simp only [Eval.takes_bind_iff, takes_selectCase_iff, takes_runCases_iff]
  constructor
  · rintro ⟨given, rfl, ⟨m, hchild, ⟨e, rfl, rfl, hperformed⟩ | ⟨value, w₁, rest, rfl, hperformed,
      ⟨e, hscope, -⟩ | ⟨own, w₂, hscope, h⟩⟩⟩ | ⟨hnone, rfl, rfl, rfl⟩⟩
    · rw [mapError_of_placed (by rintro _ ⟨⟩; exact placed_of_performed hperformed)]
      exact .abrupt hchild hperformed
    · exact absurd hscope hopened
    · have hopens {given : Except Abrupt Unit} {w₃ : World}
          (hfunctions : (ev.context a).instantiateCases own (a.tree.present n "cases") w₂ = .done given w₃) :
          ev.Opens a n s ⟨.eval a m s, w, .ok value, w₁⟩ value own given w₃ :=
        ⟨⟨m, hchild, rfl⟩, hperformed, rfl, w₂, hscope, hfunctions⟩
      obtain ⟨e, hfunctions, rfl, rfl⟩ | ⟨⟨⟩, w₃, hfunctions, h⟩ := h
      · exact .unbound rfl (hopens hfunctions)
      · obtain ⟨e, rfl, htested⟩ | ⟨tests, runs, selected, w₄, rfl, htested, hruns⟩ := h
        · rw [mapError_of_placed (by rintro _ ⟨⟩; exact htested.placed)]
          exact .untested rfl (hopens hfunctions) htested
        · rw [mapError_of_placed (by rintro _ rfl; exact hruns.placed)]
          exact .ran rfl (hopens hfunctions) htested ((chosen_iff ev).mpr rfl) hruns
    · exact .lacking hnone
  · intro h
    cases h with
    | lacking hnone => exact ⟨_, rfl, Or.inr ⟨hnone, rfl, rfl, rfl⟩⟩
    | abrupt hchild hperformed =>
      refine ⟨_, ?_, Or.inl ⟨_, hchild, Or.inl ⟨_, rfl, rfl, hperformed⟩⟩⟩
      exact (mapError_of_placed (by rintro _ ⟨⟩; exact placed_of_performed hperformed)).symm
    | unbound hstart hopens =>
      obtain ⟨m, w₁, w₂, hchild, rfl, hperformed, hscope, hfunctions⟩ := hopens.steps hstart
      exact ⟨_, rfl, Or.inl ⟨m, hchild, Or.inr ⟨_, w₁, [], rfl, hperformed,
        Or.inr ⟨_, w₂, hscope, Or.inl ⟨_, hfunctions, rfl, rfl⟩⟩⟩⟩⟩
    | untested hstart hopens htested =>
      obtain ⟨m, w₁, w₂, hchild, rfl, hperformed, hscope, hfunctions⟩ := hopens.steps hstart
      refine ⟨_, ?_, Or.inl ⟨m, hchild, Or.inr ⟨_, w₁, _, rfl, hperformed,
        Or.inr ⟨_, w₂, hscope, Or.inr ⟨(), _, hfunctions, Or.inl ⟨_, rfl, htested⟩⟩⟩⟩⟩⟩
      exact (mapError_of_placed (by rintro _ ⟨⟩; exact htested.placed)).symm
    | ran hstart hopens htested hchosen hruns =>
      obtain ⟨m, w₁, w₂, hchild, rfl, hperformed, hscope, hfunctions⟩ := hopens.steps hstart
      obtain rfl := (chosen_iff ev).mp hchosen
      refine ⟨_, ?_, Or.inl ⟨m, hchild, Or.inr ⟨_, w₁, _, rfl, hperformed, Or.inr ⟨_, w₂, hscope,
        Or.inr ⟨(), _, hfunctions, Or.inr ⟨_, _, _, _, rfl, htested, hruns⟩⟩⟩⟩⟩⟩
      exact (mapError_of_placed (by rintro _ rfl; exact hruns.placed)).symm

end Evaluator

/-! ## Where a break ends -/

namespace Context

variable {β : Type} {asked : Task → Prop} {given : Except Abrupt Value} {result : Except Abrupt β} {c : Context}
  {n body : NodeId} {s : ScopeId}

theorem avoids_eval (h : ¬asked (.eval c.toActivation n s)) : (c.eval n s).Avoids asked :=
  fun _ => ⟨h, fun _ _ => trivial⟩

theorem answers_bodyOnce (c : Context) (body : NodeId) (s : ScopeId) :
    (c.bodyOnce body s).Answers asked (.error .broke) (.ok false) := by
  have heval : (c.eval body s).catching.Answers asked (.error .broke) (.ok (.error .broke)) := fun w =>
    ⟨fun _ _ => rfl, fun _ _ => trivial⟩
  refine heval.bind (fun outcome => ?_) fun _ => rfl
  unfold goesOn
  split <;> exact fun _ => trivial

/-- Neither a key nor a default of a pattern is a body of the loop. -/
theorem avoids_bindRound (c : Context) (left : NodeId) (value : Value) (s u : ScopeId) (body : NodeId) :
    (c.bindRound left value s).Avoids (· = .eval c.toActivation body u) := by
  have hbind (m : NodeId) (binding : Binding) : (c.bind m value s binding).Avoids (· = .eval c.toActivation body u) :=
    fun _ => ⟨nofun, fun outcome _ => by cases outcome <;> trivial⟩
  unfold bindRound
  split
  · split
    · rw [require]
      split
      · exact hbind _ _
      · exact fun _ => trivial
    · exact fun _ => trivial
  · exact hbind left _

theorem answers_rounds (c : Context) (left body : NodeId) (s : ScopeId) (values : List Value) :
    (c.rounds left body s values).Answers (· = .eval c.toActivation body s) (.error .broke) (.ok .undefined) := by
  induction values with
  | nil => exact Eval.answers_pure _
  | cons value rest ih =>
    refine (avoids_bindRound c left value s s body).bind fun _ =>
      (answers_bodyOnce c body s).bind (fun on => ?_) fun _ => rfl
    split
    · exact ih
    · exact Eval.answers_pure _

theorem answers_iteration (hbody : c.tree.child? n "body" = some body) (values : List Value) :
    (c.iteration n values s).Answers (· = .eval c.toActivation body s) (.error .broke) (.ok .undefined) := by
  refine answers_require fun left _ => answers_require fun child hchild => ?_
  cases hbody.symm.trans hchild
  exact answers_rounds c left body s values

/-- Loops that run over values. -/
theorem answers_forInStatement (hbody : c.tree.child? n "body" = some body)
    (hright : c.tree.child? n "right" ≠ some body) :
    (c.forInStatement n s).Answers (· = .eval c.toActivation body s) (.error .broke) (.ok .undefined) := by
  refine answers_require fun right hchild => (avoids_eval ?_).bind fun subject => ?_
  · rintro ⟨⟩
    exact hright hchild
  · have hkeys : (Eval.reads fun w => w.enumerableKeys subject).Avoids (· = .eval c.toActivation body s) :=
      fun _ => trivial
    exact hkeys.bind fun keys => answers_iteration hbody _

theorem answers_forOfStatement (hbody : c.tree.child? n "body" = some body)
    (hright : c.tree.child? n "right" ≠ some body) :
    (c.forOfStatement n s).Answers (· = .eval c.toActivation body s) (.error .broke) (.ok .undefined) := by
  refine answers_require fun right hchild => (avoids_eval ?_).bind fun subject => ?_
  · rintro ⟨⟩
    exact hright hchild
  · have hvalues : ((Eval.checks fun w => w.iterate subject).raisedAt right).Avoids
        (· = .eval c.toActivation body s) := by
      intro w
      rw [Eval.raisedAt, Eval.checks]
      split <;> trivial
    exact hvalues.bind fun values => answers_iteration hbody values

/-! The other loops end as their rounds do. -/

/-- The rounds of a loop of the activation. -/
def IsRounds (c : Context) (task : Task) : Prop := ∃ loop s testFirst, task = .loop c.toActivation loop s testFirst

theorem answers_loop (loop : Loop) (testFirst : Bool) : (c.loop loop s testFirst).Answers asked given given :=
  fun _ => ⟨fun _ _ => rfl, fun _ _ => trivial⟩

theorem answers_forStatement (c : Context) (n : NodeId) (s : ScopeId) :
    (c.forStatement n s).Answers c.IsRounds given given := by
  refine answers_blockScope fun own => answers_require fun body _ => ?_
  split
  · refine (avoids_eval ?_).bind fun _ => answers_loop _ _
    rintro ⟨_, _, _, ⟨⟩⟩
  · exact answers_loop _ _

theorem answers_whileStatement (c : Context) (n : NodeId) (s : ScopeId) :
    (c.whileStatement n s).Answers c.IsRounds given given :=
  answers_require fun _ _ => answers_require fun _ _ => answers_loop _ _

theorem answers_doWhileStatement (c : Context) (n : NodeId) (s : ScopeId) :
    (c.doWhileStatement n s).Answers c.IsRounds given given :=
  answers_require fun _ _ => answers_require fun _ _ => answers_loop _ _

end Context

namespace Evaluator

variable {ev : Evaluator} {a : Activation}

theorem answers_round {loop : Loop} (htest : loop.test ≠ some loop.body) (hupdate : loop.update ≠ some loop.body)
    (s : ScopeId) (testFirst : Bool) : (ev.round a loop s testFirst).Answers (· = .eval a loop.body s)
      (.error .broke) (.ok (.value .undefined)) := by
  have henters : (enters (ev.context a) loop s testFirst).Avoids (· = .eval a loop.body s) := by
    unfold enters
    split
    next test hchild =>
      split
      · refine fun w => ⟨?_, fun outcome w' => by cases outcome <;> trivial⟩
        rintro ⟨⟩
        exact htest hchild
      · exact fun _ => trivial
    · exact fun _ => trivial
  have hafter : (update (ev.context a) loop s).Avoids (· = .eval a loop.body s) := by
    unfold update
    split
    next node hchild =>
      refine fun w => ⟨?_, fun outcome w' => by cases outcome <;> trivial⟩
      rintro ⟨⟩
      exact hupdate hchild
    · exact fun _ => trivial
  refine henters.bind fun starts => ?_
  split
  · refine (Context.answers_bodyOnce _ loop.body s).bind (fun on => ?_) fun _ => rfl
    split
    · exact hafter.bind fun _ => Eval.answers_pure _
    · exact Eval.answers_pure _
  · exact Eval.answers_pure _

/-- The loops, and the tasks of their bodies; the parts of a loop are different nodes. -/
inductive Loops (ev : Evaluator) (a : Activation) : Task → Task → Prop
  | rounds {loop : Loop} {s : ScopeId} {testFirst : Bool} (htest : loop.test ≠ some loop.body)
    (hupdate : loop.update ≠ some loop.body) : Loops ev a (.loop a loop s testFirst) (.eval a loop.body s)
  | forIn {n body : NodeId} {s : ScopeId} (hrule : ev.rules.get? (a.tree.tag n) = some .forInStatement)
    (hbody : a.tree.child? n "body" = some body) (hright : a.tree.child? n "right" ≠ some body) :
    Loops ev a (.eval a n s) (.eval a body s)
  | forOf {n body : NodeId} {s : ScopeId} (hrule : ev.rules.get? (a.tree.tag n) = some .forOfStatement)
    (hbody : a.tree.child? n "body" = some body) (hright : a.tree.child? n "right" ≠ some body) :
    Loops ev a (.eval a n s) (.eval a body s)

variable {task : Task} {w w' : World} {before after : List Errand} {inner : Errand} {outcome : Except Abrupt Value}
  {n : NodeId} {s : ScopeId} {errands : List Errand}

/-- The evaluation of a node does what its rule does with an outcome. -/
theorem eval_answers {rule : Rule} {asked : Task → Prop} {given : Except Abrupt Value} {value : Value}
    (hrule : ev.rules.get? (a.tree.tag n) = some rule)
    (hanswers : (rule.meaning ev.host (ev.context a) n s).Answers asked given (.ok value))
    (h : ev.Performs (.eval a n s) w (before ++ inner :: after) outcome w') (hasked : asked inner.task)
    (hgiven : inner.outcome = given) : after = [] ∧ outcome = .ok value ∧ w' = inner.stop := by
  rw [performs_iff_takes (m := ev.evalNode a n s) rfl, evalNode, hrule] at h
  exact Computation.Answers.takes ((hanswers w).raisedAt rfl) h hasked hgiven

/-- A loop ends as soon as its rounds have ended normally. -/
theorem loop_ends_with_rounds (hrule : ev.rules.get? (a.tree.tag n) = some .forStatement ∨
      ev.rules.get? (a.tree.tag n) = some .whileStatement ∨ ev.rules.get? (a.tree.tag n) = some .doWhileStatement)
    (h : ev.Performs (.eval a n s) w (before ++ inner :: after) outcome w')
    (hrounds : (ev.context a).IsRounds inner.task) {value : Value} (hinner : inner.outcome = .ok value) :
    after = [] ∧ outcome = .ok value ∧ w' = inner.stop := by
  obtain hrule | hrule | hrule := hrule
  · exact eval_answers hrule (Context.answers_forStatement _ n s) h hrounds hinner
  · exact eval_answers hrule (Context.answers_whileStatement _ n s) h hrounds hinner
  · exact eval_answers hrule (Context.answers_doWhileStatement _ n s) h hrounds hinner

/-- **A loop keeps a `break` of its body to itself:** it ends normally there. -/
theorem loop_contains_break (hloops : ev.Loops a task inner.task)
    (h : ev.Performs task w (before ++ inner :: after) outcome w') (hinner : inner.outcome = .error .broke) :
    after = [] ∧ outcome = .ok .undefined ∧ w' = inner.stop := by
  generalize htask : inner.task = asked at hloops
  cases hloops with
  | rounds htest hupdate =>
    exact loop_answers (fun testFirst => answers_round htest hupdate _ testFirst) h htask hinner
  | forIn hrule hbody hright =>
    exact eval_answers hrule (Context.answers_forInStatement hbody hright) h htask hinner
  | forOf hrule hbody hright =>
    exact eval_answers hrule (Context.answers_forOfStatement hbody hright) h htask hinner

theorem performs_break_iff (hrule : ev.rules.get? (a.tree.tag n) = some .breakStatement)
    (hlabel : a.tree.child? n "label" = none) :
    ev.Performs (.eval a n s) w errands outcome w' ↔ errands = [] ∧ outcome = .error .broke ∧ w' = w := by
  have hbreak : Rule.meaning ev.host .breakStatement (ev.context a) n s w = .done (.error .broke) w := by
    show (ev.context a).unlabelled n .broke w = _
    rw [Context.unlabelled, show (ev.context a).tree.child? n "label" = none from hlabel]
    rfl
  rw [performs_eval_iff hrule, hbreak]
  simp only [Computation.takes_done_iff]
  constructor
  · rintro ⟨given, rfl, rfl, rfl, rfl⟩
    exact ⟨rfl, rfl, rfl⟩
  · rintro ⟨rfl, rfl, rfl⟩
    exact ⟨_, rfl, rfl, rfl, rfl⟩

/-- **A `switch` selects a case and falls through.** It is performed in just this way: the discriminant once, the
tests in order up to the first that is strictly equal to it, then the statements from that case on, else from the
first default on, up to the first abrupt end; a `break` ends it normally, every other end is its own. A `break`
without a label comes to it through the statements that hold it, but not out of a loop, which ends normally
itself, as another `switch` does. -/
theorem switch_falls_through (ev : Evaluator) (a : Activation) :
    (∀ n s w outcome w', ev.rules.get? (a.tree.tag n) = some .switchStatement →
      ((∃ steps, ev.perform steps (.eval a n s) w = .ended (outcome, w')) ↔
        ∃ errands, ev.Switches a n s w errands outcome w')) ∧
    (∀ n s w errands outcome w', ev.rules.get? (a.tree.tag n) = some .switchStatement →
      (ev.Performs (.eval a n s) w errands outcome w' ↔ ev.Switches a n s w errands outcome w')) ∧
    (∀ n s w errands outcome w', ev.rules.get? (a.tree.tag n) = some .breakStatement →
      a.tree.child? n "label" = none →
      (ev.Performs (.eval a n s) w errands outcome w' ↔ errands = [] ∧ outcome = .error .broke ∧ w' = w)) ∧
    (∀ task w before inner after outcome w', ev.Performs task w (before ++ inner :: after) outcome w' →
      inner.outcome = .error .broke →
      (∀ receives, ev.Frame a task receives → ¬receives .broke →
        after = [] ∧ outcome = .error .broke ∧ w' = inner.stop) ∧
      (ev.Loops a task inner.task → after = [] ∧ outcome = .ok .undefined ∧ w' = inner.stop)) ∧
    ∀ n s w before inner after outcome w' value, (ev.rules.get? (a.tree.tag n) = some .forStatement ∨
        ev.rules.get? (a.tree.tag n) = some .whileStatement ∨ ev.rules.get? (a.tree.tag n) = some .doWhileStatement) →
      ev.Performs (.eval a n s) w (before ++ inner :: after) outcome w' → (ev.context a).IsRounds inner.task →
      inner.outcome = .ok value → after = [] ∧ outcome = .ok value ∧ w' = inner.stop := by
  refine ⟨fun n s w outcome w' hrule => ?_, fun n s w errands outcome w' => performs_switch_iff,
    fun n s w errands outcome w' => performs_break_iff, fun task w before inner after outcome w' h hinner =>
      ⟨fun receives hframe hreceives => passed_on hframe h hinner (fun _ => rfl) hreceives,
        fun hloops => loop_contains_break hloops h hinner⟩,
    fun n s w before inner after outcome w' value hrule h hrounds => loop_ends_with_rounds hrule h hrounds⟩
  rw [exists_perform_iff]
  exact exists_congr fun errands => performs_switch_iff hrule

/-- `switch (true) { case false: throw true; , default: throw true; case true: { } case null: break; throw true; }`,
with a hole before the default. -/
def fallingSwitch : Json :=
  let literal (value : Json) : Json := .ofNode "Literal" [("value", value)]
  let case (test : Json) (body : List Json) : Json :=
    .ofNode "SwitchCase" [("test", test), ("consequent", .array body)]
  let throw := Json.ofNode "ThrowStatement" [("argument", literal (.bool true))]
  .ofNode "Program" [("body", .array [.ofNode "SwitchStatement" [("discriminant", literal (.bool true)),
    ("cases", .array [case (literal (.bool false)) [throw], .null, case .null [throw],
      case (literal (.bool true)) [.ofNode "BlockStatement" [("body", .array [])]],
      case (literal .null) [.ofNode "BreakStatement" [("label", .null)], throw]])]])]

/-- Whether the `switch` and its `break` are where they were written, and the `switch` ends with `undefined`. -/
def fallsThrough (ev : Evaluator) (r : Resolved) (w : World) : Bool :=
  ev.rules.get? (r.tree.tag 16) == some .switchStatement && ev.rules.get? (r.tree.tag 12) == some .breakStatement &&
  r.tree.child? 12 "label" == none &&
  match ev.perform 20 (.eval ⟨r.tree, r.links, 0⟩ 16 r.links.rootScope) w with
  | .ended (.ok .undefined, _) => true
  | _ => false

/-- Neither the case before the default nor the default itself is run, and the `break` is the last thing that is. -/
theorem switch_falls_through_past_default : ∃ t r w errands w', Tree.ofJson fallingSwitch = .ok t ∧
    standard.resolve t 0 (World.newRootScope {}).2 = (.ok r, w) ∧
    standard.Performs (.eval ⟨r.tree, r.links, 0⟩ 16 r.links.rootScope) w errands (.ok .undefined) w' ∧
    standard.Switches ⟨r.tree, r.links, 0⟩ 16 r.links.rootScope w errands (.ok .undefined) w' ∧
    standard.Performs (.eval ⟨r.tree, r.links, 0⟩ 12 r.links.rootScope) w [] (.error .broke) w := by
  obtain ⟨t, ht, hfound⟩ := Tree.exists_ofJson (j := fallingSwitch)
    (p := fun t => standard.resolvesTo t standard.fallsThrough) (by decide +kernel)
  obtain ⟨r, w, hresolve, hchecks⟩ := exists_of_resolvesTo hfound
  simp only [fallsThrough, Bool.and_eq_true, beq_iff_eq] at hchecks
  obtain ⟨⟨⟨hswitch, hbreak⟩, hlabel⟩, hends⟩ := hchecks
  split at hends
  next w' hrun =>
    obtain ⟨errands, hperforms⟩ := performs_of_perform hrun
    obtain ⟨-, hiff, hbreaks, -⟩ := standard.switch_falls_through ⟨r.tree, r.links, 0⟩
    exact ⟨t, r, w, errands, w', ht, hresolve, hperforms,
      (hiff 16 r.links.rootScope w errands (.ok .undefined) w' hswitch).mp hperforms,
      (hbreaks 12 r.links.rootScope w [] (.error .broke) w hbreak hlabel).mpr ⟨rfl, rfl, rfl⟩⟩
  · cases hends

end Evaluator

end ScriptCore

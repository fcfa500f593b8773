import ScriptCore.Proofs.Hoist.Targets
import ScriptCore.Proofs.Tree.Footprint

/-!
# Statement lists

The statements of a program, a block or the body of a handler are a list, and so are those of all cases of a
switch. The resolution gives the statements of one list one scope, through however many nodes it comes upon
them, and so their function declarations go to one scope (`Links.Directs.listed`).
-/
namespace ScriptCore

namespace Tree

/-- The name of a function declaration that has one. -/
def functionName? (t : Tree) (d : NodeId) : Option String :=
  if t.is d "FunctionDeclaration" then (t.child? d "id").bind t.identifierName? else none

variable {t : Tree} {p d e root : NodeId}

/-- Programs, blocks, switches and `try` statements run lists. -/
theorem tag_of_listed (h : d ∈ t.listed p) : t.tag p = "Program" ∨ t.tag p = "BlockStatement" ∨
    t.tag p = "SwitchStatement" ∨ t.tag p = "TryStatement" := by
  rw [listed] at h
  split at h
  next htag => exact Or.inl htag
  next htag => exact Or.inr (Or.inl htag)
  next htag => exact Or.inr (Or.inr (Or.inl htag))
  next htag => exact Or.inr (Or.inr (Or.inr htag))
  · cases h

theorem tag_of_functionName? {name : String} (h : t.functionName? d = some name) :
    t.tag d = "FunctionDeclaration" := by
  rw [functionName?] at h
  split at h
  next htag => simpa [is] using htag
  · cases h

/-- A switch and a `try` statement hold nothing that they list. -/
theorem Proper.not_held_of_listed (ht : t.Proper)
    (htag : t.tag p = "SwitchStatement" ∨ t.tag p = "TryStatement") (h : d ∈ t.listed p) : d ∉ t.held p := by
  intro hheld
  have hthrough {q : NodeId} (hq : d ∈ t.held q) (hlt : q < p) : False :=
    Nat.ne_of_lt hlt (ht.unique_parent hq hheld)
  rw [listed] at h
  obtain htag | htag := htag
  · rw [htag] at h
    obtain ⟨c, hc, hd⟩ := List.mem_flatMap.mp h
    exact hthrough (held_of_present hd) (ht.lt_of_held (held_of_present hc))
  · rw [htag] at h
    obtain ⟨body, hbody, hd⟩ := List.mem_flatMap.mp h
    obtain ⟨handler, hhandler, hinner⟩ := Option.bind_eq_some_iff.mp (Option.mem_toList.mp hbody)
    exact hthrough (held_of_present hd) (Nat.lt_trans (ht.lt_of_held (held_of_child? hinner))
      (ht.lt_of_held (held_of_child? hhandler)))

/-- What is walked to, other than the root, is walked to through the node that holds it. -/
theorem Proper.walked_holder (ht : t.Proper) (h : t.Walked root d) (hroot : d ≠ root) (hheld : d ∈ t.held p) :
    t.Walked root p ∧ t.Opens p d := by
  obtain heq | ⟨q, hq, hopens⟩ := Relation.ReflTransGen.cases_tail h
  · exact absurd heq hroot
  · obtain rfl := ht.unique_parent (childNodes_subset_held q hopens.2) hheld
    exact ⟨hq, hopens⟩

/-- A node from which two cases are walked to has the switch between it and them: neither is, or is in, the
root of the walk. -/
theorem Proper.walked_switch (ht : t.Proper) {c c' : NodeId} (hc : c ∈ t.held p) (hc' : c' ∈ t.held p)
    (hne : c ≠ c') (hd : d ∈ t.held c) (he : e ∈ t.held c') (hdw : t.Walked root d) (hew : t.Walked root e) :
    t.Walked root p := by
  have hapart {a b : NodeId} (ha : a ∈ t.held p) (hb : b ∈ t.held p) : b ∉ t.held a := by
    intro hba
    exact Nat.ne_of_lt (ht.lt_of_held ha) (ht.unique_parent hba hb)
  by_contra hp
  have hroot {c d : NodeId} (hc : c ∈ t.held p) (hd : d ∈ t.held c) (hdw : t.Walked root d) :
      d = root ∨ c = root := by
    by_contra hneither
    obtain ⟨hdroot, hcroot⟩ := not_or.mp hneither
    exact hp (ht.walked_holder (ht.walked_holder hdw hdroot hd).1 hcroot hc).1
  obtain rfl | rfl := hroot hc hd hdw <;> obtain heq | heq := hroot hc' he hew
  · exact hne (ht.unique_parent hd (heq ▸ he))
  · exact hapart hc hc' (heq ▸ hd)
  · exact hapart hc' hc (heq ▸ he)
  · exact hne heq.symm

/-- What is visited of a list of statements in a case is visited by a key that no block has. -/
theorem Proper.isBlock_of_opens (ht : t.Proper) {c : NodeId} (hopens : t.Opens c d)
    (hd : d ∈ t.present c "consequent") : Tag.isBlock (t.tag c) = false := by
  obtain ⟨items, hfield, hin⟩ := field?_of_present hd
  have hchild : d ∈ t.childNodes c := hopens.2
  by_contra hblock
  simp only [Bool.not_eq_false, Tag.isBlock, Bool.or_eq_true, decide_eq_true_eq] at hblock
  have hkeys (keys : List String) (hvisits : Tag.visitorKeys? (t.tag c) = some keys) : "consequent" ∈ keys := by
    simp only [childNodes] at hchild
    rw [tag] at hvisits
    rw [hvisits] at hchild
    obtain ⟨field, hmem, hdfield⟩ := List.mem_flatMap.mp hchild
    obtain ⟨key, hkey, hfound⟩ := List.mem_filterMap.mp hmem
    have hsame : key = "consequent" := ht.key_eq hfound hfield hdfield hin
    exact hsame ▸ hkey
  obtain ((hblock | hblock) | hblock) | hblock := hblock <;> rw [hblock] at hkeys <;>
    simpa using hkeys _ rfl

end Tree

namespace Links

variable {t : Tree} {l : Links} {p d e : NodeId}

/-- Two statements that one node holds have one scope. -/
theorem Stamped.scope?_held (h : l.Stamped t l.root l.rootScope) (ht : t.Proper) (hd : d ∈ t.held p)
    (he : e ∈ t.held p) (hdw : t.Walked l.root d) (hew : t.Walked l.root e)
    (hdb : Tag.isBlock (t.tag d) = false) (heb : Tag.isBlock (t.tag e) = false) : l.scope? d = l.scope? e := by
  -- a root that is held by `p` is below it, so nothing else is walked to from it through `p`
  have hroot {n m : NodeId} (hn : n ∈ t.held p) (hm : m ∈ t.held p) (hmw : t.Walked l.root m)
      (heq : n = l.root) : n = m := by
    by_contra hne
    obtain ⟨hp, -⟩ := ht.walked_holder hmw (fun hmroot => hne (heq.trans hmroot.symm)) hm
    have hlt := ht.lt_of_held hn
    rw [heq] at hlt
    exact Nat.not_lt.mpr (ht.walked_le hp) hlt
  by_cases hdr : d = l.root
  · rw [hroot hd he hew hdr]
  · by_cases her : e = l.root
    · rw [hroot he hd hdw her]
    · obtain ⟨hp, hopensd⟩ := ht.walked_holder hdw hdr hd
      obtain ⟨-, hopense⟩ := ht.walked_holder hew her he
      rw [h.inherited hp hopensd hdb, h.inherited hp hopense heb]

/-- A statement of a case of a visited switch has the scope of the switch. -/
theorem Stamped.scope?_case (h : l.Stamped t l.root l.rootScope) (ht : t.Proper) {c : NodeId}
    (hp : t.Walked l.root p) (hc : c ∈ t.held p) (hd : d ∈ t.present c "consequent")
    (hdw : t.Walked l.root d) (hdb : Tag.isBlock (t.tag d) = false) : l.scope? d = l.scope? p := by
  have hdc := Tree.held_of_present hd
  have hcroot : c ≠ l.root := Nat.ne_of_lt (Nat.lt_of_lt_of_le (ht.lt_of_held hc) (ht.walked_le hp))
  have hdroot : d ≠ l.root := by
    have hlt := Nat.lt_trans (ht.lt_of_held hdc) (ht.lt_of_held hc)
    exact Nat.ne_of_lt (Nat.lt_of_lt_of_le hlt (ht.walked_le hp))
  obtain ⟨hcw, hopensd⟩ := ht.walked_holder hdw hdroot hdc
  obtain ⟨-, hopensc⟩ := ht.walked_holder hcw hcroot hc
  rw [h.inherited hcw hopensd hdb, h.inherited hp hopensc (ht.isBlock_of_opens hopensd hd)]

/-- Two statements of one list have one scope. -/
theorem Stamped.scope?_listed (h : l.Stamped t l.root l.rootScope) (ht : t.Proper) (hd : d ∈ t.listed p)
    (he : e ∈ t.listed p) (hdw : t.Walked l.root d) (hew : t.Walked l.root e)
    (hdb : Tag.isBlock (t.tag d) = false) (heb : Tag.isBlock (t.tag e) = false) : l.scope? d = l.scope? e := by
  have hheld {q : NodeId} {key : String} (hd : d ∈ t.present q key) (he : e ∈ t.present q key) :
      l.scope? d = l.scope? e :=
    h.scope?_held ht (Tree.held_of_present hd) (Tree.held_of_present he) hdw hew hdb heb
  generalize hlist : t.listed p = statements at hd he
  rw [Tree.listed] at hlist
  split at hlist <;> subst hlist
  · exact hheld hd he
  · exact hheld hd he
  · obtain ⟨c, hc, hd⟩ := List.mem_flatMap.mp hd
    obtain ⟨c', hc', he⟩ := List.mem_flatMap.mp he
    by_cases hsame : c = c'
    · subst hsame
      exact hheld hd he
    · have hpc := Tree.held_of_present hc
      have hpc' := Tree.held_of_present hc'
      have hp := ht.walked_switch hpc hpc' hsame (Tree.held_of_present hd) (Tree.held_of_present he) hdw hew
      rw [h.scope?_case ht hp hpc hd hdw hdb, h.scope?_case ht hp hpc' he hew heb]
  · obtain ⟨body, hbody, hd⟩ := List.mem_flatMap.mp hd
    obtain ⟨body', hbody', he⟩ := List.mem_flatMap.mp he
    obtain rfl : body = body' :=
      Option.some.inj ((Option.mem_toList.mp hbody).symm.trans (Option.mem_toList.mp hbody'))
    exact hheld hd he
  · cases hd

/-- **The function declarations of one list go to one scope**, those of them that the resolution comes upon. -/
theorem Directs.listed {n : Nat} (h : l.Directs t n) (ht : t.Proper) (hd : d ∈ t.listed p)
    (he : e ∈ t.listed p) (htagd : t.tag d = "FunctionDeclaration") (htage : t.tag e = "FunctionDeclaration")
    {target other : ScopeId} (hdt : l.target? d = some target) (het : l.target? e = some other) :
    target = other := by
  have hplain {n : NodeId} (htag : t.tag n = "FunctionDeclaration") : Tag.isBlock (t.tag n) = false := by
    rw [htag]
    rfl
  exact h.same d e target other htagd htage hdt het (h.stamped.scope?_listed ht hd he (h.walked d target hdt)
    (h.walked e other het) (hplain htagd) (hplain htage))

end Links

end ScriptCore

import Mathlib.Data.List.Flatten
import ScriptCore.Proofs.Tree.Tour

/-!
# Walks in pre-order

A walk calls the rules of the nodes it visits, and the visits are the pre-order of the tree, cut off below the
nodes where a rule asked to skip (`Tree.walk_pruned`). The calls are observed on the walk itself, under
rules that write themselves down (`Walker.recording`). What a skip leaves out is what the walks from the children
find, so that walks spliced in at every skipped node make up the walk that skips nothing.
-/
namespace ScriptCore

variable {α β γ ρ σ : Type}

/-! ## Visits -/

/-- A call of a rule and what it asked for. -/
structure Call (ρ : Type) where
  rule : ρ
  node : NodeId
  parent : Option NodeId
  action : WalkAction
  deriving DecidableEq

/-- A station of a walk: the node it visits, the parent through which it reached the node, and the rules it called
there, each with what it asked for. -/
structure Station (ρ : Type) where
  node : NodeId
  parent : Option NodeId
  answers : List (ρ × WalkAction)

namespace Station

def place (v : Station ρ) : NodeId × Option NodeId := (v.node, v.parent)

def rules (v : Station ρ) : List ρ := v.answers.map Prod.fst

/-- Whether every rule let the walk go on to the children. -/
def descends (v : Station ρ) : Bool := v.answers.all fun answer => answer.2 = .descend

def calls (v : Station ρ) : List (Call ρ) :=
  v.answers.map fun answer => ⟨answer.1, v.node, v.parent, answer.2⟩

/-- The node, its parent and the rules, whatever these asked for. -/
def outline (v : Station ρ) : NodeId × Option NodeId × List ρ := (v.node, v.parent, v.rules)

/-- A station without a parent, hung below one. -/
def hungBelow (parent : NodeId) (v : Station ρ) : Station ρ := { v with parent := v.parent.or (some parent) }

end Station

/-- What a list gives element by element, each in the state that the one before has left. -/
def inTurn (f : α → σ → List β × σ) : List α → σ → List β × σ
  | [], s => ([], s)
  | a :: rest, s =>
    let first := f a s
    let others := inTurn f rest first.2
    (first.1 ++ others.1, others.2)

namespace Walker

/-- The rules of a tag: the wildcard rule, then its own. -/
def rules (w : Walker ρ) (tag : String) : List ρ := w.any.toList ++ (w.rule? tag).toList

/-- The answer of one rule. -/
def ask (meaning : ρ → Handler σ) (t : Tree) (node : NodeId) (parent : Option NodeId) (rule : ρ) (s : σ) :
    List (ρ × WalkAction) × σ :=
  let answer := meaning rule t node parent s
  ([(rule, answer.1)], answer.2)

/-- The visit of one node. -/
def visitNode (w : Walker ρ) (meaning : ρ → Handler σ) (t : Tree) (node : NodeId) (parent : Option NodeId)
    (s : σ) : Station ρ × σ :=
  let answers := inTurn (ask meaning t node parent) (w.rules (t.tag node)) s
  (⟨node, parent, answers.1⟩, answers.2)

/-- The visits of the subtree of a node down to the given number of levels. -/
def visits (w : Walker ρ) (meaning : ρ → Handler σ) (t : Tree) :
    Nat → NodeId → Option NodeId → σ → List (Station ρ) × σ
  | 0, _, _, s => ([], s)
  | levels + 1, node, parent, s =>
    let here := w.visitNode meaning t node parent s
    if here.1.descends then
      let below := inTurn (fun child => visits w meaning t levels child (some node)) (t.childNodes node) here.2
      (here.1 :: below.1, below.2)
    else ([here.1], here.2)

/-- The visits of a walk from a node, and the state that it leaves. -/
def journey (w : Walker ρ) (meaning : ρ → Handler σ) (t : Tree) (start : NodeId) (s : σ) :
    List (Station ρ) × σ :=
  w.visits meaning t t.size start none s

/-- The rules with a record of their calls. -/
def recording (meaning : ρ → Handler σ) : ρ → Handler (List (Call ρ) × σ) := fun rule t node parent record =>
  let answer := meaning rule t node parent record.2
  (answer.1, (record.1 ++ [⟨rule, node, parent, answer.1⟩], answer.2))

/-- The rules without their skips. -/
def unskipping (meaning : ρ → Handler σ) : ρ → Handler σ := fun rule t node parent s =>
  (.descend, (meaning rule t node parent s).2)

/-! ## The visits are those of the walk -/

/-- Recording element by element records the whole. -/
theorem inTurn_recording {f : α → σ → List β × σ} {g : α → List γ × σ → List β × (List γ × σ)}
    {calls : β → List γ}
    (h : ∀ a record, g a record = ((f a record.2).1, (record.1 ++ (f a record.2).1.flatMap calls, (f a record.2).2)))
    (l : List α) (record : List γ × σ) : inTurn g l record =
      ((inTurn f l record.2).1, (record.1 ++ (inTurn f l record.2).1.flatMap calls, (inTurn f l record.2).2)) := by
  induction l generalizing record with
  | nil => simp [inTurn]
  | cons a rest ih => simp only [inTurn, h, ih, List.flatMap_append, List.append_assoc]

/-- What a list gives is put together from what its elements give, each in some state. -/
theorem inTurn_parts (f : α → σ → List β × σ) (l : List α) (s : σ) :
    ∃ parts : List (α × List β), parts.map Prod.fst = l ∧ (inTurn f l s).1 = parts.flatMap Prod.snd ∧
      ∀ part ∈ parts, ∃ s, part.2 = (f part.1 s).1 := by
  induction l generalizing s with
  | nil => exact ⟨[], rfl, rfl, nofun⟩
  | cons a rest ih =>
    obtain ⟨parts, hfst, heq, hparts⟩ := ih (f a s).2
    refine ⟨(a, (f a s).1) :: parts, ?_, ?_, ?_⟩
    · rw [List.map_cons, hfst]
    · rw [inTurn, heq, List.flatMap_cons]
    · intro part hpart
      rcases List.mem_cons.mp hpart with rfl | hpart
      · exact ⟨s, rfl⟩
      · exact hparts part hpart

theorem inTurn_congr {f g : α → σ → List β × σ} {l : List α} (h : ∀ a ∈ l, ∀ s, f a s = g a s)
    (s : σ) : inTurn f l s = inTurn g l s := by
  induction l generalizing s with
  | nil => rfl
  | cons a rest ih =>
    simp only [inTurn, h a List.mem_cons_self, ih fun a ha => h a (List.mem_cons_of_mem _ ha)]

variable {w : Walker ρ} {meaning : ρ → Handler σ} {t : Tree}

theorem visitNode_recording (node : NodeId) (parent : Option NodeId) (record : List (Call ρ) × σ) :
    w.visitNode (recording meaning) t node parent record =
      ((w.visitNode meaning t node parent record.2).1,
        (record.1 ++ (w.visitNode meaning t node parent record.2).1.calls,
          (w.visitNode meaning t node parent record.2).2)) := by
  have hask (rule : ρ) (record : List (Call ρ) × σ) : ask (recording meaning) t node parent rule record =
      ((ask meaning t node parent rule record.2).1,
        (record.1 ++ (ask meaning t node parent rule record.2).1.flatMap fun answer =>
          [⟨answer.1, node, parent, answer.2⟩], (ask meaning t node parent rule record.2).2)) := rfl
  simp only [visitNode, inTurn_recording hask, Station.calls, List.map_eq_flatMap]

/-- Recording changes no visit, and records the calls of all visits in order. -/
theorem visits_recording (levels : Nat) (node : NodeId) (parent : Option NodeId) (record : List (Call ρ) × σ) :
    w.visits (recording meaning) t levels node parent record =
      ((w.visits meaning t levels node parent record.2).1,
        (record.1 ++ (w.visits meaning t levels node parent record.2).1.flatMap Station.calls,
          (w.visits meaning t levels node parent record.2).2)) := by
  induction levels generalizing node parent record with
  | zero => simp [visits]
  | succ levels ih =>
    simp only [visits, visitNode_recording]
    split
    · rw [inTurn_recording fun child record => ih child (some node) record]
      simp [List.append_assoc]
    · simp

theorem apply_eq (node : NodeId) (parent : Option NodeId) (s : σ) : w.apply meaning t node parent s =
    (if (w.visitNode meaning t node parent s).1.descends then .descend else .skip,
      (w.visitNode meaning t node parent s).2) := by
  have hone (action : WalkAction) : (if action = .descend then .descend else .skip) = action := by
    cases action <;> rfl
  -- one skip is enough, whichever rule asks for it
  have htwo (first second : WalkAction) : (if first = .skip then .skip else second) =
      if first = .descend ∧ second = .descend then .descend else .skip := by
    cases first <;> cases second <;> rfl
  unfold apply visitNode rules Station.descends
  cases w.any <;> cases w.rule? (t.tag node) <;> simp [inTurn, ask, hone, htwo]

/-- A walk ends in the state that its visits leave. -/
theorem visit_eq (levels : Nat) (node : NodeId) (parent : Option NodeId) (s : σ) :
    w.visit meaning t levels node parent s = (w.visits meaning t levels node parent s).2 := by
  have hfold (f : NodeId → σ → List (Station ρ) × σ) (children : List NodeId) (s : σ) :
      children.foldl (fun s child => (f child s).2) s = (inTurn f children s).2 := by
    induction children generalizing s with
    | nil => rfl
    | cons child rest ih => exact ih _
  induction levels generalizing node parent s with
  | zero => rfl
  | succ levels ih =>
    simp only [visit, visits, apply_eq, ih, hfold]
    by_cases h : (w.visitNode meaning t node parent s).1.descends = true <;> simp [h]

/-- A node's answers are those of the rules of its tag. -/
theorem rules_visitNode (node : NodeId) (parent : Option NodeId) (s : σ) :
    (w.visitNode meaning t node parent s).1.rules = w.rules (t.tag node) := by
  obtain ⟨parts, hfst, heq, hparts⟩ := inTurn_parts (ask meaning t node parent) (w.rules (t.tag node)) s
  have hone : ∀ part ∈ parts, part.2.map Prod.fst = [part.1] := fun part hpart => by
    obtain ⟨s, hs⟩ := hparts part hpart
    rw [hs]
    rfl
  calc (w.visitNode meaning t node parent s).1.rules = (parts.flatMap Prod.snd).map Prod.fst := by
        rw [← heq]
        rfl
    _ = parts.flatMap fun part => [part.1] := by rw [List.map_flatMap, List.flatMap_congr hone]
    _ = w.rules (t.tag node) := by rw [← List.map_eq_flatMap, hfst]

/-- Levels beyond a node's id are not used up. -/
theorem visits_eq_of_lt (ht : t.Proper) {levels levels' : Nat} {node : NodeId} (h : node < levels)
    (h' : node < levels') : w.visits meaning t levels node = w.visits meaning t levels' node := by
  refine ht.levels_eq (fun levels levels' node hchildren => ?_) h h'
  funext parent s
  have hbelow := inTurn_congr (l := t.childNodes node) fun child hchild =>
    congrFun (congrFun (hchildren child (Tree.childNodes_subset_held node hchild)) (some node))
  simp only [visits, hbelow]

/-- The visits of a subtree, by which rules were called and what was skipped: a node alone if a rule skipped it,
else the node and the visits of the subtrees of its children, one after the other. -/
inductive Walks (w : Walker ρ) (t : Tree) : NodeId → Option NodeId → List (Station ρ) → Prop
  | skipped {v : Station ρ} (hrules : v.rules = w.rules (t.tag v.node)) (hskips : ¬ v.descends) :
    Walks w t v.node v.parent [v]
  | descended {v : Station ρ} (hrules : v.rules = w.rules (t.tag v.node)) (hdescends : v.descends)
    {below : List (NodeId × List (Station ρ))} (hchildren : below.map Prod.fst = t.childNodes v.node)
    (hbelow : ∀ b ∈ below, Walks w t b.1 (some v.node) b.2) :
    Walks w t v.node v.parent (v :: below.flatMap Prod.snd)

/-- What the rules do in which state does not matter for how their visits hang together. -/
theorem walks (ht : t.Proper) {levels : Nat} {node : NodeId} (h : node < levels) (parent : Option NodeId) (s : σ) :
    w.Walks t node parent (w.visits meaning t levels node parent s).1 := by
  induction levels generalizing node parent s with
  | zero => exact absurd h (Nat.not_lt_zero node)
  | succ levels ih =>
    have hrules : (w.visitNode meaning t node parent s).1.rules = w.rules (t.tag node) :=
      rules_visitNode node parent s
    rw [visits]
    split
    next hdescends =>
      obtain ⟨below, hchildren, heq, hbelow⟩ := inTurn_parts
        (fun child => w.visits meaning t levels child (some node)) (t.childNodes node)
        (w.visitNode meaning t node parent s).2
      simp only [heq]
      refine .descended hrules hdescends hchildren fun b hb => ?_
      obtain ⟨s, hs⟩ := hbelow b hb
      have hlt := ht.child_lt (hchildren ▸ List.mem_map_of_mem hb)
      rw [hs]
      exact ih (Nat.lt_of_lt_of_le hlt (Nat.le_of_lt_succ h)) (some node) s
    next hskips => exact .skipped hrules hskips

end Walker

/-! ## Pre-order -/

namespace Tree

/-- The nodes of a subtree in pre-order, each with its parent, down to the given number of levels. -/
def preorder (t : Tree) : Nat → NodeId → Option NodeId → List (NodeId × Option NodeId)
  | 0, _, _ => []
  | levels + 1, node, parent =>
    (node, parent) :: (t.childNodes node).flatMap fun child => t.preorder levels child (some node)

/-- A node leads to itself and to what its children lead to. -/
def Leads (t : Tree) (node below : NodeId) : Prop :=
  Relation.ReflTransGen (fun p child => child ∈ t.childNodes p) node below

variable {t : Tree} {n m : NodeId}

theorem Leads.below (h : t.Leads n m) : t.Below n m :=
  Relation.ReflTransGen.mono (fun _ _ hchild => childNodes_subset_held _ hchild) _ _ h

theorem Proper.leads_le (ht : t.Proper) (h : t.Leads n m) : m ≤ n := ht.below_le h.below

theorem leads_of_mem_preorder {levels : Nat} {parent : Option NodeId}
    (h : m ∈ (t.preorder levels n parent).map Prod.fst) : t.Leads n m := by
  induction levels generalizing n parent with
  | zero => cases h
  | succ levels ih =>
    rw [preorder, List.map_cons, List.map_flatMap, List.mem_cons, List.mem_flatMap] at h
    rcases h with rfl | ⟨child, hchild, hmem⟩
    · exact .refl
    · exact .head hchild (ih hmem)

/-- No node is twice in pre-order. -/
theorem Proper.preorder_nodup (ht : t.Proper) (levels : Nat) (parent : Option NodeId) :
    ((t.preorder levels n parent).map Prod.fst).Nodup := by
  induction levels generalizing n parent with
  | zero => exact List.nodup_nil
  | succ levels ih =>
    rw [preorder, List.map_cons, List.map_flatMap, List.nodup_cons, List.mem_flatMap, List.nodup_flatMap]
    -- a node is above all that it leads to, and nothing is below two of its children
    refine ⟨?_, fun child _ => ih (some n), (ht.childNodes_nodup n).pairwise_of_forall_ne ?_⟩
    · rintro ⟨child, hchild, hmem⟩
      exact Nat.not_lt_of_le (ht.leads_le (leads_of_mem_preorder hmem)) (ht.child_lt hchild)
    · intro a ha b hb hne m hm hm'
      exact ht.not_below_siblings (childNodes_subset_held n ha) (childNodes_subset_held n hb) hne
        (leads_of_mem_preorder hm).below (leads_of_mem_preorder hm').below

/-- Levels beyond a node's id are not used up. -/
theorem Proper.preorder_eq_of_lt (ht : t.Proper) {levels levels' : Nat} (h : n < levels) (h' : n < levels') :
    t.preorder levels n = t.preorder levels' n := by
  refine ht.levels_eq (fun levels levels' n hchildren => ?_) h h'
  funext parent
  have hbelow : ∀ child ∈ t.childNodes n, t.preorder levels child (some n) = t.preorder levels' child (some n) :=
    fun child hchild => congrFun (hchildren child (childNodes_subset_held n hchild)) (some n)
  rw [preorder, preorder, List.flatMap_congr hbelow]

theorem Proper.preorder_eq (ht : t.Proper) {levels : Nat} (h : n < levels) (parent : Option NodeId) :
    t.preorder levels n parent =
      (n, parent) :: (t.childNodes n).flatMap fun child => t.preorder levels child (some n) := by
  rw [ht.preorder_eq_of_lt h (Nat.lt_succ_of_lt h), preorder]

/-- A pre-order hung below a node. -/
theorem preorder_or (t : Tree) (levels : Nat) (n : NodeId) (parent : Option NodeId) (p : NodeId) :
    (t.preorder levels n parent).map (fun place => (place.1, place.2.or (some p))) =
      t.preorder levels n (parent.or (some p)) := by
  induction levels generalizing n parent with
  | zero => rfl
  | succ levels ih => simp only [preorder, List.map_cons, List.map_flatMap, ih, Option.some_or]

end Tree

/-! ## Visits are a part of the pre-order -/

namespace Walker

variable {w : Walker ρ} {t : Tree} {node : NodeId} {parent : Option NodeId} {visits : List (Station ρ)}

namespace Walks

theorem rules_eq (h : w.Walks t node parent visits) : ∀ v ∈ visits, v.rules = w.rules (t.tag v.node) := by
  induction h with
  | skipped hrules => exact fun v hv => List.mem_singleton.mp hv ▸ hrules
  | descended hrules _ _ _ ih =>
    intro v hv
    rcases List.mem_cons.mp hv with rfl | hv
    · exact hrules
    · obtain ⟨b, hb, hv⟩ := List.mem_flatMap.mp hv
      exact ih b hb v hv

/-- The node itself is visited. -/
theorem head_mem (h : w.Walks t node parent visits) : ∃ v ∈ visits, v.node = node := by
  cases h with
  | skipped => exact ⟨_, List.mem_singleton_self _, rfl⟩
  | descended => exact ⟨_, List.mem_cons_self, rfl⟩

/-- What is visited, but for the node itself, is a child of a visited node below which the walk went. -/
theorem reached (h : w.Walks t node parent visits) : ∀ v ∈ visits,
    v.node = node ∨ ∃ p ∈ visits, p.descends ∧ v.node ∈ t.childNodes p.node := by
  induction h with
  | skipped => exact fun v hv => .inl (List.mem_singleton.mp hv ▸ rfl)
  | @descended u _ hdescends below hchildren _ ih =>
    intro v hv
    rcases List.mem_cons.mp hv with rfl | hv
    · exact .inl rfl
    · obtain ⟨b, hb, hv⟩ := List.mem_flatMap.mp hv
      right
      rcases ih b hb v hv with hnode | ⟨p, hp, hdown, hchild⟩
      · exact ⟨u, List.mem_cons_self, hdescends, hchildren ▸ hnode ▸ List.mem_map_of_mem hb⟩
      · exact ⟨p, List.mem_cons_of_mem u (List.mem_flatMap.mpr ⟨b, hb, hp⟩), hdown, hchild⟩

/-- Below a visited node where no rule skips, every child is visited. -/
theorem reaches (h : w.Walks t node parent visits) : ∀ p ∈ visits, p.descends →
    ∀ child ∈ t.childNodes p.node, ∃ v ∈ visits, v.node = child := by
  induction h with
  | skipped _ hskips => exact fun p hp hdown => absurd hdown (List.mem_singleton.mp hp ▸ hskips)
  | @descended u _ _ below hchildren hbelow ih =>
    intro p hp hdown child hchild
    suffices ∃ b ∈ below, ∃ v ∈ b.2, v.node = child by
      obtain ⟨b, hb, v, hv, hnode⟩ := this
      exact ⟨v, List.mem_cons_of_mem u (List.mem_flatMap.mpr ⟨b, hb, hv⟩), hnode⟩
    rcases List.mem_cons.mp hp with rfl | hp
    · rw [← hchildren] at hchild
      obtain ⟨b, hb, rfl⟩ := List.mem_map.mp hchild
      exact ⟨b, hb, (hbelow b hb).head_mem⟩
    · obtain ⟨b, hb, hp⟩ := List.mem_flatMap.mp hp
      exact ⟨b, hb, ih b hb p hp hdown child hchild⟩

theorem leads (h : w.Walks t node parent visits) : ∀ v ∈ visits, t.Leads node v.node := by
  induction h with
  | skipped => exact fun v hv => List.mem_singleton.mp hv ▸ .refl
  | @descended u _ _ below hchildren _ ih =>
    intro v hv
    rcases List.mem_cons.mp hv with rfl | hv
    · exact .refl
    · obtain ⟨b, hb, hv⟩ := List.mem_flatMap.mp hv
      exact .head (hchildren ▸ List.mem_map_of_mem hb) (ih b hb v hv)

/-- The visits are in pre-order. -/
theorem sublist (ht : t.Proper) (h : w.Walks t node parent visits) {levels : Nat} (hlevels : node < levels) :
    (visits.map Station.place).Sublist (t.preorder levels node parent) := by
  induction h with
  | skipped =>
    rw [ht.preorder_eq hlevels]
    exact .cons_cons _ (List.nil_sublist _)
  | @descended u _ _ below hchildren _ ih =>
    rw [ht.preorder_eq hlevels, List.map_cons, List.map_flatMap, ← hchildren, List.flatMap_map]
    refine .cons_cons _ (List.Sublist.flatMap_right below fun b hb => ih b hb ?_)
    exact Nat.lt_trans (ht.child_lt (hchildren ▸ List.mem_map_of_mem hb)) hlevels

/-- Visits make up the whole pre-order as soon as those that skip stand for all that is below them. -/
theorem flatMap_eq_preorder (ht : t.Proper) (h : w.Walks t node parent visits) {levels : Nat} (hlevels : node < levels)
    {whole : Station ρ → List (NodeId × Option NodeId)}
    (hwhole : ∀ v ∈ visits, whole v = if v.descends then [v.place] else t.preorder levels v.node v.parent) :
    visits.flatMap whole = t.preorder levels node parent := by
  induction h with
  | skipped _ hskips =>
    rw [List.flatMap_singleton, hwhole _ (List.mem_singleton_self _), if_neg hskips]
  | @descended u _ hdescends below hchildren _ ih =>
    have hchild : ∀ b ∈ below, b.2.flatMap whole = t.preorder levels b.1 (some u.node) := fun b hb =>
      ih b hb (Nat.lt_trans (ht.child_lt (hchildren ▸ List.mem_map_of_mem hb)) hlevels) fun v hv =>
        hwhole v (List.mem_cons_of_mem u (List.mem_flatMap.mpr ⟨b, hb, hv⟩))
    rw [ht.preorder_eq hlevels, List.flatMap_cons, hwhole u List.mem_cons_self, if_pos hdescends, List.flatMap_assoc,
      List.flatMap_congr hchild, ← hchildren, List.flatMap_map]
    rfl

end Walks

end Walker

namespace Tree

/-- The visits of a walk are the pre-order from its start, cut off where a rule skipped. -/
structure PrunedPreorder (t : Tree) (w : Walker ρ) (start : NodeId) (visits : List (Station ρ)) : Prop where
  rules : ∀ v ∈ visits, v.rules = w.rules (t.tag v.node)
  order : (visits.map Station.place).Sublist (t.preorder t.size start none)
  once : (visits.map Station.node).Nodup
  visited : ∀ n, (∃ v ∈ visits, v.node = n) ↔ t.Leads start n ∧
    ∀ p, t.Leads start p → t.Leads p n → p ≠ n → ∃ v ∈ visits, v.node = p ∧ v.descends

variable {w : Walker ρ} {start : NodeId} {visits : List (Station ρ)}

theorem Proper.prunedPreorder {t : Tree} (ht : t.Proper) (hstart : start < t.size) (h : w.Walks t start none visits) :
    t.PrunedPreorder w start visits := by
  have horder := h.sublist ht hstart
  have hnodes : (visits.map Station.node).Sublist ((t.preorder t.size start none).map Prod.fst) := by
    simpa [Function.comp_def, Station.place] using horder.map Prod.fst
  refine ⟨h.rules_eq, horder, (ht.preorder_nodup _ _).sublist hnodes, fun n => ⟨?_, ?_⟩⟩
  · rintro ⟨v, hv, rfl⟩
    refine ⟨h.leads v hv, fun p hp hleads => ?_⟩
    -- the parent of a visited node was visited and let the walk go on; from there up to the start by induction
    generalize hn : v.node = n at hleads
    induction hleads generalizing v with
    | refl => exact fun hne => absurd rfl hne
    | @tail q n hleads hchild ih =>
      intro _
      rcases h.reached v hv with heq | ⟨u, hu, hdown, hchild'⟩
      · have hle := Nat.le_trans (ht.leads_le hleads) (ht.leads_le hp)
        exact absurd (ht.child_lt hchild) (Nat.not_lt_of_le (hn ▸ heq ▸ hle))
      · have hq : u.node = q :=
          ht.unique_parent (childNodes_subset_held _ hchild') (childNodes_subset_held _ (hn ▸ hchild))
        by_cases hpq : p = q
        · exact ⟨u, hu, hq.trans hpq.symm, hdown⟩
        · exact ih u hu hq hpq
  · rintro ⟨hleads, hdescends⟩
    obtain rfl | ⟨q, hq, hchild⟩ := Relation.ReflTransGen.cases_tail hleads
    · exact h.head_mem
    · obtain ⟨u, hu, rfl, hdown⟩ := hdescends q hq (.single hchild) (Nat.ne_of_gt (ht.child_lt hchild))
      exact h.reaches u hu hdown n hchild

end Tree

/-! ## Splicing -/

/-- Visits with the walks from the children spliced in at every visit that skips, also in what was spliced in, down
to the given number of levels. -/
def Walker.splice (t : Tree) (walk : NodeId → List (Station ρ)) : Nat → List (Station ρ) → List (Station ρ)
  | 0, visits => visits
  | levels + 1, visits => visits.flatMap fun v =>
    if v.descends then [v] else v :: (t.childNodes v.node).flatMap fun child =>
      (Walker.splice t walk levels (walk child)).map (Station.hungBelow v.node)

namespace Walker

variable {w : Walker ρ} {meaning : ρ → Handler σ} {t : Tree} {walk : NodeId → List (Station ρ)} {levels : Nat}
  {node : NodeId} {parent : Option NodeId} {visits : List (Station ρ)}

/-- What is spliced in completes the pre-order. -/
theorem splice_places (ht : t.Proper) (hwalk : ∀ n < t.size, w.Walks t n none (walk n)) (hnode : node < t.size)
    (hlevels : node < levels) (h : w.Walks t node parent visits) :
    (splice t walk levels visits).map Station.place = t.preorder t.size node parent := by
  induction levels generalizing node parent visits with
  | zero => exact absurd hlevels (Nat.not_lt_zero node)
  | succ levels ih =>
    rw [splice, List.map_flatMap]
    refine h.flatMap_eq_preorder ht hnode fun v hv => ?_
    split
    · rfl
    · have hle := ht.leads_le (h.leads v hv)
      rw [ht.preorder_eq (Nat.lt_of_le_of_lt hle hnode), List.map_cons, List.map_flatMap]
      congr 1
      refine List.flatMap_congr fun child hchild => ?_
      have hlt := Nat.lt_of_lt_of_le (ht.child_lt hchild) hle
      have hspliced := ih (Nat.lt_trans hlt hnode) (Nat.lt_of_lt_of_le hlt (Nat.le_of_lt_succ hlevels))
        (hwalk child (Nat.lt_trans hlt hnode))
      -- the walk from a child knows no parent, and is hung below the node that was skipped
      calc ((splice t walk levels (walk child)).map (Station.hungBelow v.node)).map Station.place
          = ((splice t walk levels (walk child)).map Station.place).map
              fun place => (place.1, place.2.or (some v.node)) := by
            rw [List.map_map, List.map_map]
            rfl
        _ = t.preorder t.size child (some v.node) := by rw [hspliced, Tree.preorder_or, Option.none_or]

theorem splice_rules (ht : t.Proper) (hwalk : ∀ n < t.size, w.Walks t n none (walk n)) (hnode : node < t.size)
    (h : w.Walks t node parent visits) : ∀ v ∈ splice t walk levels visits, v.rules = w.rules (t.tag v.node) := by
  induction levels generalizing node parent visits with
  | zero => exact h.rules_eq
  | succ levels ih =>
    intro v hv
    rw [splice, List.mem_flatMap] at hv
    obtain ⟨u, hu, hv⟩ := hv
    split at hv
    · exact List.mem_singleton.mp hv ▸ h.rules_eq u hu
    · rcases List.mem_cons.mp hv with rfl | hv
      · exact h.rules_eq v hu
      · obtain ⟨child, hchild, hv⟩ := List.mem_flatMap.mp hv
        obtain ⟨spliced, hspliced, rfl⟩ := List.mem_map.mp hv
        have hle := ht.leads_le (h.leads u hu)
        have hlt := Nat.lt_trans (Nat.lt_of_lt_of_le (ht.child_lt hchild) hle) hnode
        exact ih hlt (hwalk child hlt) spliced hspliced

theorem unskipping_descends (node : NodeId) (parent : Option NodeId) (s : σ) :
    (w.visitNode (unskipping meaning) t node parent s).1.descends := by
  obtain ⟨parts, -, heq, hparts⟩ := inTurn_parts (ask (unskipping meaning) t node parent) (w.rules (t.tag node)) s
  rw [Station.descends, visitNode, heq, List.all_eq_true]
  intro answer hanswer
  obtain ⟨part, hpart, hanswer⟩ := List.mem_flatMap.mp hanswer
  obtain ⟨s, hs⟩ := hparts part hpart
  rw [hs] at hanswer
  rw [List.mem_singleton.mp hanswer]
  rfl

/-- A walk that skips nothing goes through the whole pre-order. -/
theorem unskipping_places (levels : Nat) (node : NodeId) (parent : Option NodeId) (s : σ) :
    (w.visits (unskipping meaning) t levels node parent s).1.map Station.place = t.preorder levels node parent := by
  induction levels generalizing node parent s with
  | zero => rfl
  | succ levels ih =>
    obtain ⟨below, hchildren, heq, hbelow⟩ := inTurn_parts
      (fun child => w.visits (unskipping meaning) t levels child (some node)) (t.childNodes node)
      (w.visitNode (unskipping meaning) t node parent s).2
    have hplaces : ∀ b ∈ below, b.2.map Station.place = t.preorder levels b.1 (some node) := fun b hb => by
      obtain ⟨s, hs⟩ := hbelow b hb
      rw [hs, ih]
    simp only [visits, if_pos (unskipping_descends node parent s), heq, List.map_cons, List.map_flatMap]
    rw [List.flatMap_congr hplaces, Tree.preorder, ← hchildren, List.flatMap_map]
    rfl

/-- With the rules that tags have, places tell the outlines. -/
theorem outlines_eq {visits visits' : List (Station ρ)} (h : ∀ v ∈ visits, v.rules = w.rules (t.tag v.node))
    (h' : ∀ v ∈ visits', v.rules = w.rules (t.tag v.node))
    (hplaces : visits.map Station.place = visits'.map Station.place) :
    visits.map Station.outline = visits'.map Station.outline := by
  have houtline {visits : List (Station ρ)} (h : ∀ v ∈ visits, v.rules = w.rules (t.tag v.node)) :
      visits.map Station.outline =
        (visits.map Station.place).map fun place => (place.1, place.2, w.rules (t.tag place.1)) := by
    rw [List.map_map]
    refine List.map_congr_left fun v hv => ?_
    rw [Station.outline, h v hv]
    rfl
  rw [houtline h, houtline h', hplaces]

end Walker

namespace Tree

/-- **A walk of an imported tree is its pruned pre-order.** From any node, whatever the rules do, they are called
at the visited nodes and there in order, both even if the first skips; and with the walks from the children of
every skipped node spliced in, in whatever states these start, it is the walk that skips nothing. -/
theorem walk_pruned {j : Json} {t : Tree} (h : ofJson j = .ok t) {ρ σ : Type} (w : Walker ρ)
    (meaning : ρ → Handler σ) {start : NodeId} (hstart : start < t.size) :
    (∀ s, t.PrunedPreorder w start (w.journey meaning t start s).1 ∧ ∀ levels, t.size ≤ levels →
      w.walkFrom (Walker.recording meaning) t levels start ([], s) =
        ((w.journey meaning t start s).1.flatMap Station.calls, (w.journey meaning t start s).2) ∧
      w.walkFrom meaning t levels start s = (w.journey meaning t start s).2) ∧
    ∀ (s s' : σ) (states : NodeId → σ),
      (Walker.splice t (fun child => (w.journey meaning t child (states child)).1) t.size
        (w.journey meaning t start s).1).map Station.outline =
        (w.journey (Walker.unskipping meaning) t start s').1.map Station.outline := by
  have ht := ofJson_proper h
  have hwalks (meaning : ρ → Handler σ) {n : NodeId} (hn : n < t.size) (s : σ) :
      w.Walks t n none (w.journey meaning t n s).1 := Walker.walks ht hn none s
  constructor
  · intro s
    refine ⟨ht.prunedPreorder hstart (hwalks meaning hstart s), fun levels hlevels => ?_⟩
    have hlt := Nat.lt_of_lt_of_le hstart hlevels
    constructor
    · rw [Walker.walkFrom, Walker.visit_eq, Walker.visits_recording, Walker.visits_eq_of_lt ht hlt hstart]
      rfl
    · rw [Walker.walkFrom, Walker.visit_eq, Walker.visits_eq_of_lt ht hlt hstart]
      rfl
  · intro s s' states
    have hchild : ∀ n < t.size, w.Walks t n none (w.journey meaning t n (states n)).1 :=
      fun n hn => hwalks meaning hn (states n)
    have hown := hwalks meaning hstart s
    refine Walker.outlines_eq (Walker.splice_rules ht hchild hstart hown) (hwalks _ hstart s').rules_eq ?_
    rw [Walker.splice_places ht hchild hstart hstart hown, Walker.journey, Walker.unskipping_places]

/-- A wildcard rule, and a rule of its own for one tag. -/
def twoRules : Walker String := (({} : Walker String).onAny "any").on "ExpressionStatement" "own"

/-- Rules that count their calls, the second of which skips. -/
def secondSkips : String → Handler Nat := fun _ _ _ _ calls => (if calls = 1 then .skip else .descend, calls + 1)

/-- The wildcard rule skips the statement, whose own rule is called all the same, and what is left out is spliced in. -/
theorem walk_pruned_nested : ∃ t, ofJson nested = .ok t ∧ 4 < t.size ∧
    t.PrunedPreorder twoRules 4 (twoRules.journey secondSkips t 4 0).1 ∧
    twoRules.walkFrom (Walker.recording secondSkips) t t.size 4 ([], 0) =
      ([⟨"any", 4, none, .descend⟩, ⟨"any", 2, some 4, .skip⟩, ⟨"own", 2, some 4, .descend⟩], 3) ∧
    (twoRules.journey (Walker.unskipping secondSkips) t 4 0).1.map Station.outline =
      [(4, none, ["any"]), (2, some 4, ["any", "own"]), (1, some 2, ["any"])] := by
  obtain ⟨t, ht, hcheck⟩ := exists_ofJson (j := nested)
    (p := fun t => decide (4 < t.size ∧ (twoRules.journey secondSkips t 4 0).2 = 3 ∧
      (twoRules.journey secondSkips t 4 0).1.flatMap Station.calls =
        [⟨"any", 4, none, .descend⟩, ⟨"any", 2, some 4, .skip⟩, ⟨"own", 2, some 4, .descend⟩] ∧
      (Walker.splice t (fun child => (twoRules.journey secondSkips t child 0).1) t.size
        (twoRules.journey secondSkips t 4 0).1).map Station.outline =
        [(4, none, ["any"]), (2, some 4, ["any", "own"]), (1, some 2, ["any"])])) (by decide +kernel)
  obtain ⟨hsize, hstate, hcalls, hspliced⟩ := of_decide_eq_true hcheck
  obtain ⟨hwalk, hsplice⟩ := walk_pruned ht twoRules secondSkips hsize
  obtain ⟨hpruned, hrecorded⟩ := hwalk 0
  refine ⟨t, ht, hsize, hpruned, ?_, ?_⟩
  · rw [(hrecorded t.size (Nat.le_refl _)).1, hcalls, hstate]
  · rw [← hsplice 0 0 fun _ => 0, hspliced]

end Tree

end ScriptCore

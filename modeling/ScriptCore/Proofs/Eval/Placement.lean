import ScriptCore.Eval.Computation
import ScriptCore.Proofs.Hoist.Stamps

/-!
# Where nodes are evaluated

The evaluator hands scopes from node to node; the resolution stamps them ahead. Both agree on a node
that is evaluated in the scope stamped on its parent (`Activation.Placed`), and a statement is besides
one that the resolution visited (`Activation.Standing`). Two places are exempt: a switch's discriminant
is evaluated outside the scope of the switch, and a catch parameter in the scope of the clause's body.
-/
namespace ScriptCore

/-- The children that are evaluated in another scope than the one stamped on their parent. -/
def Tree.Exempt (t : Tree) (p n : NodeId) : Prop :=
  (t.tag p = "SwitchStatement" ∧ t.child? p "discriminant" = some n) ∨
    (t.tag p = "CatchClause" ∧ t.child? p "param" = some n)

namespace Links

/-- A node in a switch's discriminant or in the parameter of a catch clause. -/
inductive Sheltered (t : Tree) (l : Links) : NodeId → Prop
  | start {n p : NodeId} (hp : l.parent? n = some p) (h : t.Exempt p n) : Sheltered t l n
  | inside {n p : NodeId} (hp : l.parent? n = some p) (h : Sheltered t l p) : Sheltered t l n

/-- The scope stamped on the parent of a node; for the root of the resolution, the root scope. -/
def around (l : Links) (n : NodeId) : Option ScopeId :=
  match l.parent? n with
  | some p => l.scope? p
  | none => some l.rootScope

end Links

namespace Activation

/-- An activation with the links of a resolution of a tree that hangs together, of a program or of the
body of a function. -/
structure Sound (a : Activation) : Prop where
  tree : a.tree.Proper
  stamped : a.links.Stamped a.tree a.links.root a.links.rootScope
  root_holder : ∀ p, a.links.root ∈ a.tree.held p → Tag.isFunction (a.tree.tag p) = true

/-- If the resolution visited the node, and not in one of the two exempt places, then `s` is the scope
stamped on its parent. -/
def Placed (a : Activation) (n : NodeId) (s : ScopeId) : Prop :=
  a.links.contains n = true → ¬ a.links.Sheltered a.tree n → a.links.around n = some s

/-- A visited node outside the exempt places, in the scope stamped on its parent. -/
structure Standing (a : Activation) (n : NodeId) (s : ScopeId) : Prop where
  visited : a.tree.Walked a.links.root n
  unsheltered : ¬ a.links.Sheltered a.tree n
  around : a.links.around n = some s

/-- A visited node outside the exempt places, with the scope that its children are evaluated in. -/
structure Entered (a : Activation) (n : NodeId) (s : ScopeId) : Prop where
  visited : a.tree.Walked a.links.root n
  unsheltered : ¬ a.links.Sheltered a.tree n
  scope : a.links.scope? n = some s

variable {a : Activation} {n child : NodeId} {s own : ScopeId}

theorem Standing.placed (h : a.Standing n s) : a.Placed n s := fun _ _ => h.around

/-- The scope stamped on a visited node that opens none is that around it. -/
theorem Sound.scope?_eq_around (ha : a.Sound) (hn : a.tree.Walked a.links.root n)
    (hblock : Tag.isBlock (a.tree.tag n) = false) : a.links.scope? n = a.links.around n := by
  rw [Links.around]
  rcases Relation.ReflTransGen.cases_tail hn with rfl | ⟨p, hp, hopens⟩
  · rw [ha.stamped.parent_root]
    exact ha.stamped.root_scope
  · rw [ha.stamped.parent_eq hp hopens]
    exact ha.stamped.inherited hp hopens hblock

theorem Standing.entered (ha : a.Sound) (h : a.Standing n s)
    (hblock : Tag.isBlock (a.tree.tag n) = false) : a.Entered n s :=
  ⟨h.visited, h.unsheltered, by rw [ha.scope?_eq_around h.visited hblock, h.around]⟩

/-- A block that is come upon has a scope. -/
theorem Standing.exists_entered (ha : a.Sound) (h : a.Standing n s) : ∃ own, a.Entered n own := by
  have hcontains := (ha.stamped.contains_iff n).mpr h.visited
  rw [Links.contains, Option.isSome_iff_exists] at hcontains
  obtain ⟨own, hown⟩ := hcontains
  exact ⟨own, h.visited, h.unsheltered, hown⟩

/-- A child of an entered node that is not exempt stands in the scope that the node is entered with. -/
theorem Entered.standing (ha : a.Sound) (h : a.Entered n own)
    (hopen : Tag.isClosed (a.tree.tag n) = false) (hchild : child ∈ a.tree.childNodes n)
    (hexempt : ¬ a.tree.Exempt n child) : a.Standing child own := by
  have hparent := ha.stamped.parent_eq h.visited ⟨hopen, hchild⟩
  refine ⟨h.visited.tail ⟨hopen, hchild⟩, ?_, ?_⟩
  · intro hsheltered
    cases hsheltered with
    | start hp hexempt' =>
      rw [hparent] at hp
      cases hp
      exact hexempt hexempt'
    | inside hp hsheltered =>
      rw [hparent] at hp
      cases hp
      exact h.unsheltered hsheltered
  · rw [Links.around, hparent]
    exact h.scope

/-- A visited child other than the root was visited through the node that holds it. -/
theorem Sound.visited_child (ha : a.Sound) (hfunction : Tag.isFunction (a.tree.tag n) = false)
    (hchild : child ∈ a.tree.childNodes n) (hvisited : a.links.contains child = true) :
    a.tree.Walked a.links.root n ∧ a.links.parent? child = some n := by
  have hheld := Tree.childNodes_subset_held _ hchild
  rcases Relation.ReflTransGen.cases_tail ((ha.stamped.contains_iff child).mp hvisited) with
    heq | ⟨p, hp, hopens⟩
  · rw [heq] at hheld
    have hholder := ha.root_holder n hheld
    rw [hfunction] at hholder
    cases hholder
  · have hpn := ha.tree.unique_parent (Tree.childNodes_subset_held _ hopens.2) hheld
    rw [hpn] at hp hopens
    exact ⟨hp, ha.stamped.parent_eq hp hopens⟩

/-- Children of a node that opens no scope are placed where the node is. -/
theorem Placed.descend (ha : a.Sound) (h : a.Placed n s)
    (hblock : Tag.isBlock (a.tree.tag n) = false) (hfunction : Tag.isFunction (a.tree.tag n) = false)
    (hchild : child ∈ a.tree.childNodes n) : a.Placed child s := by
  intro hvisited hsheltered
  obtain ⟨hn, hparent⟩ := ha.visited_child hfunction hchild hvisited
  have hcontains := (ha.stamped.contains_iff n).mpr hn
  have hunsheltered : ¬ a.links.Sheltered a.tree n := fun h => hsheltered (.inside hparent h)
  rw [Links.around, hparent]
  exact (ha.scope?_eq_around hn hblock).trans (h hcontains hunsheltered)

/-- In the exempt places, any scope will do. -/
theorem Sound.placed_exempt (ha : a.Sound) (hfunction : Tag.isFunction (a.tree.tag n) = false)
    (hchild : child ∈ a.tree.childNodes n) (hexempt : a.tree.Exempt n child) : a.Placed child s := by
  intro hvisited hsheltered
  obtain ⟨-, hparent⟩ := ha.visited_child hfunction hchild hvisited
  exact absurd (.start hparent hexempt) hsheltered

end Activation

end ScriptCore

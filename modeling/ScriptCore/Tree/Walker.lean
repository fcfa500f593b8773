import ScriptCore.Tree.Basic
import ScriptCore.Data.Dict

/-!
# Walking a tree

A walk visits nodes in pre-order. At each node the wildcard rule runs first, then the rule for the
node's tag, also if the first asked to skip; if either asks to skip, the node's children stay
unvisited. A walker is a table of rules; what a rule does is given by its meaning, a `Handler` over
some state, so that tables can be compared and edited as data.
-/
namespace ScriptCore

/-- What a walk does after the rules of a node. -/
inductive WalkAction where
  | descend
  | skip
  deriving DecidableEq, Repr

/-- What a rule does: it sees the tree, the node and the parent through which the node was reached. -/
abbrev Handler (σ : Type) := Tree → NodeId → Option NodeId → σ → WalkAction × σ

/-- A table of rules: one for every node, and one for each of some tags. -/
structure Walker (ρ : Type) where
  any : Option ρ := none
  byTag : Dict ρ := ∅

namespace Walker

variable {ρ σ : Type}

def onAny (w : Walker ρ) (rule : ρ) : Walker ρ := { w with any := some rule }

def on (w : Walker ρ) (tag : String) (rule : ρ) : Walker ρ :=
  { w with byTag := w.byTag.insert tag rule }

def remove (w : Walker ρ) (tag : String) : Walker ρ := { w with byTag := w.byTag.erase tag }

def rule? (w : Walker ρ) (tag : String) : Option ρ := w.byTag.get? tag

/-- Run the rules of one node. -/
def apply (w : Walker ρ) (meaning : ρ → Handler σ) : Handler σ := fun t node parent s =>
  let (first, s) := match w.any with
    | some rule => meaning rule t node parent s
    | none => (.descend, s)
  let (second, s) := match w.rule? (t.tag node) with
    | some rule => meaning rule t node parent s
    | none => (.descend, s)
  (if first = .skip then .skip else second, s)

/-- Visit the subtree of a node down to the given number of levels. -/
def visit (w : Walker ρ) (meaning : ρ → Handler σ) (t : Tree) :
    Nat → NodeId → Option NodeId → σ → σ
  | 0, _, _, s => s
  | levels + 1, node, parent, s =>
    match w.apply meaning t node parent s with
    | (.skip, s) => s
    | (.descend, s) =>
      (t.childNodes node).foldl (fun s child => visit w meaning t levels child (some node) s) s

/-- Walk the subtree of a node, which counts as parentless. As many levels as the tree has nodes are
enough unless a node lies below itself; then the rules decide how deep the walk goes, and the number
of levels is the caller's guess. -/
def walkFrom (w : Walker ρ) (meaning : ρ → Handler σ) (t : Tree) (levels : Nat) (start : NodeId)
    (s : σ) : σ :=
  w.visit meaning t levels start none s

def walk (w : Walker ρ) (meaning : ρ → Handler σ) (t : Tree) (levels : Nat) (s : σ) : σ :=
  w.walkFrom meaning t levels t.root s

/-- What every rule of the table keeps, the rules of a node keep together. -/
theorem apply_keeps {w : Walker ρ} {meaning : ρ → Handler σ} {t : Tree} {I : σ → Prop}
    (h : ∀ rule, w.any = some rule ∨ (∃ tag, w.rule? tag = some rule) →
      ∀ node parent s, I s → I (meaning rule t node parent s).2)
    (node : NodeId) (parent : Option NodeId) {s : σ} (hs : I s) :
    I (w.apply meaning t node parent s).2 := by
  cases hany : w.any with
  | none =>
    cases hrule : w.rule? (t.tag node) with
    | none => simpa only [apply, hany, hrule] using hs
    | some rule => simpa only [apply, hany, hrule] using h rule (Or.inr ⟨_, hrule⟩) node parent s hs
  | some first =>
    have hfirst := h first (Or.inl hany) node parent s hs
    cases hrule : w.rule? (t.tag node) with
    | none => simpa only [apply, hany, hrule] using hfirst
    | some rule =>
      simpa only [apply, hany, hrule] using h rule (Or.inr ⟨_, hrule⟩) node parent _ hfirst

/-- What every rule keeps, a walk keeps. -/
theorem visit_keeps {w : Walker ρ} {meaning : ρ → Handler σ} {t : Tree} {I : σ → Prop}
    (h : ∀ rule, w.any = some rule ∨ (∃ tag, w.rule? tag = some rule) →
      ∀ node parent s, I s → I (meaning rule t node parent s).2) :
    ∀ (levels : Nat) (node : NodeId) (parent : Option NodeId) (s : σ), I s →
      I (w.visit meaning t levels node parent s)
  | 0, _, _, _, hs => hs
  | levels + 1, node, parent, s, hs => by
    have happly := apply_keeps h node parent hs
    have hchildren : ∀ (children : List NodeId) (s : σ), I s →
        I (children.foldl (fun s child => w.visit meaning t levels child (some node) s) s) := by
      intro children
      induction children with
      | nil => exact fun s hs => hs
      | cons child rest ih => exact fun s hs => ih _ (visit_keeps h levels child (some node) s hs)
    rw [visit]
    split
    next s' hs' => rw [hs'] at happly; exact happly
    next s' hs' => rw [hs'] at happly; exact hchildren _ _ happly

end Walker

end ScriptCore

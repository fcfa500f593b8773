import ScriptCore.Tree.Basic
import ScriptCore.Numeric.Printer

/-!
# Building trees

A tree is built bottom-up: nodes are added one after the other, and each gets the next id.
-/
namespace ScriptCore

/-- The value of a literal node that is to be created. -/
inductive LiteralValue where
  | str (value : String)
  | num (value : Float)
  | bool (value : Bool)

/-- The nodes added so far. -/
structure TreeBuilder where
  nodes : Array Node := #[]

namespace TreeBuilder

def size (b : TreeBuilder) : Nat := b.nodes.size

/-- Add a node; its id is the number of nodes before it. -/
def add (b : TreeBuilder) (tag : String) (fields : List (String × Field)) : NodeId × TreeBuilder :=
  (b.nodes.size, ⟨b.nodes.push ⟨tag, fields⟩⟩)

def addIdentifier (b : TreeBuilder) (name : String) : NodeId × TreeBuilder :=
  b.add "Identifier" [("name", .str name)]

/-- Add a literal with its source text; infinities and not-a-number have no literal. -/
def addLiteral? (b : TreeBuilder) (value : LiteralValue) : Option (NodeId × TreeBuilder) :=
  let literal (value : Field) (raw : String) :=
    b.add "Literal" [("value", value), ("raw", .str raw)]
  match value with
  | .str s => some (literal (.str s) ("\"" ++ s ++ "\""))
  | .num n => (Numeric.literalText? n).map fun raw => literal (.num n) raw
  | .bool v => some (literal (.bool v) (if v then "true" else "false"))

def finish (b : TreeBuilder) (root : NodeId) : Tree := ⟨b.nodes, root⟩

end TreeBuilder

end ScriptCore

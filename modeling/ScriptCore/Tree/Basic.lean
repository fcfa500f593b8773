import ScriptCore.Tree.Tag

/-!
# Syntax trees

A tree is a row of nodes and the id of its root; a node is a tag and a list of named fields, and its
children are named by id. The tree holds no parent links and no scopes: those belong to a resolution
(`ScriptCore.Links`), so that one tree serves every call of the functions it holds.
-/
namespace ScriptCore

/-- The place of a node in its tree. -/
abbrev NodeId := Nat

/-- What a field of a node holds. -/
inductive Field where
  | node (id : NodeId)
  /-- a list of children, with holes -/
  | list (items : List (Option NodeId))
  | str (value : String)
  | num (value : Float)
  | bool (value : Bool)
  /-- an absent child, or the literal `null` -/
  | null

/-- A syntax node: its tag and its fields in order. -/
structure Node where
  tag : String
  fields : List (String × Field)
  deriving Inhabited

namespace Node

/-- The first field of the given name. -/
def field? (n : Node) (key : String) : Option Field :=
  (n.fields.find? fun f => f.1 == key).map Prod.snd

end Node

namespace Field

def children : Field → List NodeId
  | .node id => [id]
  | .list items => items.filterMap fun item => item
  | _ => []

end Field

structure Tree where
  nodes : Array Node
  root : NodeId
  deriving Inhabited

namespace Tree

variable (t : Tree)

def size : Nat := t.nodes.size

/-- The node of an id; ids outside the tree have a node without tag and fields. -/
def node (id : NodeId) : Node := t.nodes[id]?.getD ⟨"", []⟩

def tag (id : NodeId) : String := (t.node id).tag

def is (id : NodeId) (tag : String) : Bool := t.tag id == tag

def field? (id : NodeId) (key : String) : Option Field := (t.node id).field? key

/-- The child in a field that holds one. -/
def child? (id : NodeId) (key : String) : Option NodeId :=
  match t.field? id key with
  | some (.node child) => some child
  | _ => none

/-- The children, with holes, in a field that holds a list. -/
def children (id : NodeId) (key : String) : List (Option NodeId) :=
  match t.field? id key with
  | some (.list items) => items
  | _ => []

/-- The children in a field that holds a list, without its holes. -/
def present (id : NodeId) (key : String) : List NodeId := (t.children id key).filterMap fun item => item

def text? (id : NodeId) (key : String) : Option String :=
  match t.field? id key with
  | some (.str value) => some value
  | _ => none

def number? (id : NodeId) (key : String) : Option Float :=
  match t.field? id key with
  | some (.num value) => some value
  | _ => none

/-- Whether a field holds `true`. -/
def flag (id : NodeId) (key : String) : Bool :=
  match t.field? id key with
  | some (.bool value) => value
  | _ => false

def identifierName? (id : NodeId) : Option String :=
  if t.is id "Identifier" then t.text? id "name" else none

/-- The children of a node in the order of visiting: by the visitor keys of a known tag, else through
all fields in their order. -/
def childNodes (id : NodeId) : List NodeId :=
  let n := t.node id
  match Tag.visitorKeys? n.tag with
  | some keys => (keys.filterMap n.field?).flatMap Field.children
  | none => n.fields.flatMap fun f => f.2.children

/-- The first statement of a program, block or class body; of an expression statement its
expression. -/
def firstExpression? (id : NodeId) : Option NodeId :=
  if t.is id "BlockStatement" || t.is id "ClassBody" || t.is id "Program" then
    match t.children id "body" with
    | some first :: _ => some ((t.child? first "expression").getD first)
    | _ => none
  else none

end Tree

end ScriptCore

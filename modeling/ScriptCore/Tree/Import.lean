import ScriptCore.Tree.Builder
import ScriptCore.Json.Reader

/-!
# Trees from JSON

An object with a string member `type` is a node; scalars are scalar fields, arrays are lists of nodes
with holes, and an object without `type` is flattened into dotted field names such as `value.cooked`.
Members that hold source positions and comments are dropped at every level. Ids are given in
post-order, children before their parents in the written order of the members.
-/
namespace ScriptCore

/-- Why a value is no syntax tree; `path` leads from the root to the offending value. -/
inductive ImportError where
  /-- the text is not JSON at all -/
  | json
  /-- something else than an object stands where a node is required -/
  | notANode (path : String)
  /-- an object used as a node has no string member `type` -/
  | missingType (path : String)
  /-- a list holds something else than nodes and `null` -/
  | unsupportedListElement (path : String)
  deriving DecidableEq, Repr

namespace ImportError

def message : ImportError → String
  | .json => "invalid ESTree JSON"
  | .notANode path => "expected an ESTree node object at `" ++ path ++ "`"
  | .missingType path => "node at `" ++ path ++ "` has no string `type` field"
  | .unsupportedListElement path =>
    "unsupported list element at `" ++ path ++ "`: lists may only hold nodes or null"

end ImportError

namespace Import

/-- Members that carry source positions or comments rather than structure. -/
def droppedKeys : List String :=
  ["loc", "range", "start", "end", "comments", "tokens", "leadingComments", "trailingComments"]

/-- Whether a member is left out: a dropped key at any level, or the `type` of a node. -/
def isDropped (keyPrefix key : String) : Bool :=
  (keyPrefix.isEmpty && key == "type") || droppedKeys.contains key

def itemPath (path : String) (index : Nat) : String := path ++ "[" ++ toString index ++ "]"

/-- A result and the nodes added so far. -/
abbrev Result (α : Type) := Except ImportError (α × TreeBuilder)

/-- What the members of an object make it. -/
inductive Role where
  | node (tag : String)
  /-- it has a member `type`, but not a string -/
  | untagged
  | plain

/-- The role of an object with the given members. -/
def role (members : List (String × Json)) : Role :=
  match lookupEntry "type" members with
  | some (.string tag) => .node tag
  | some _ => .untagged
  | none => .plain

/-- Add the node of the given tag whose fields have just been read. -/
def close (tag : String) : Result (List (String × Field)) → Result NodeId
  | .ok (fields, b) => .ok (b.add tag fields)
  | .error e => .error e

mutual

/-- The fields of a list of members; `keyPrefix` is the dotted name of the object that holds them. -/
def addFields (path keyPrefix : String) :
    List (String × Json) → TreeBuilder → Result (List (String × Field))
  | [], b => .ok ([], b)
  | (name, value) :: rest, b =>
    if isDropped keyPrefix name then addFields path keyPrefix rest b
    else
      match addField (path ++ "." ++ keyPrefix ++ name) (keyPrefix ++ name) value b with
      | .error e => .error e
      | .ok (fields, b) =>
        match addFields path keyPrefix rest b with
        | .error e => .error e
        | .ok (others, b) => .ok (fields ++ others, b)

/-- The fields that one member gives: one, or those of a flattened object. -/
def addField (path key : String) : Json → TreeBuilder → Result (List (String × Field))
  | .null, b => .ok ([(key, .null)], b)
  | .bool value, b => .ok ([(key, .bool value)], b)
  | .integer value, b => .ok ([(key, .num (Numeric.ofInt value))], b)
  | .number value, b => .ok ([(key, .num value)], b)
  | .string value, b => .ok ([(key, .str value)], b)
  | .array items, b =>
    match addItems path 0 items b with
    | .ok (ids, b) => .ok ([(key, .list ids)], b)
    | .error e => .error e
  | .object members, b =>
    match role members with
    | .node tag =>
      match close tag (addFields path "" members b) with
      | .ok (id, b) => .ok ([(key, .node id)], b)
      | .error e => .error e
    | .untagged => .error (.missingType path)
    | .plain => addFields path (key ++ ".") members b

/-- The ids of the elements of a list, from the given index on. -/
def addItems (path : String) (index : Nat) :
    List Json → TreeBuilder → Result (List (Option NodeId))
  | [], b => .ok ([], b)
  | item :: rest, b =>
    match addItem (itemPath path index) item b with
    | .error e => .error e
    | .ok (id, b) =>
      match addItems path (index + 1) rest b with
      | .error e => .error e
      | .ok (ids, b) => .ok (id :: ids, b)

/-- The id of one element of a list, none for a hole. -/
def addItem (path : String) : Json → TreeBuilder → Result (Option NodeId)
  | .null, b => .ok (none, b)
  | .object members, b =>
    match role members with
    | .node tag =>
      match close tag (addFields path "" members b) with
      | .ok (id, b) => .ok (some id, b)
      | .error e => .error e
    | _ => .error (.missingType path)
  | _, _ => .error (.unsupportedListElement path)

end

/-- Add the node that a value describes, after its children. -/
def addRoot (j : Json) (b : TreeBuilder) : Result NodeId :=
  match j with
  | .object members =>
    match role members with
    | .node tag => close tag (addFields "$" "" members b)
    | _ => .error (.missingType "$")
  | _ => .error (.notANode "$")

end Import

namespace Tree

/-- The tree that a JSON value describes. -/
def ofJson (j : Json) : Except ImportError Tree :=
  match Import.addRoot j {} with
  | .ok (root, b) => .ok (b.finish root)
  | .error e => .error e

/-- What a test finds of the tree that a JSON value describes. -/
theorem exists_ofJson {j : Json} {p : Tree → Bool}
    (h : (match ofJson j with | .ok t => p t | .error _ => false) = true) :
    ∃ t, ofJson j = .ok t ∧ p t = true := by
  cases hj : ofJson j with
  | ok t => exact ⟨t, rfl, by rw [hj] at h; exact h⟩
  | error e => rw [hj] at h; cases h

def ofText (text : String) : Except ImportError Tree :=
  match Json.parse (some Json.textDepth) text with
  | .ok j => ofJson j
  | .error _ => .error .json

end Tree

end ScriptCore

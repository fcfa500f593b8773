import ScriptCore.Value.Opening
import ScriptCore.Numeric.Printer
import ScriptCore.Text.Quoted

/-!
# Debugging texts

Texts for a reader who debugs: strings are quoted, arrays and objects are written out in brackets and
braces, and an array or object that is already open on the way down is written `<cycle>`.
-/
namespace ScriptCore.World

variable (w : World)

/-- Items between brackets. -/
def bracketed (items : List String) : String := "[" ++ ", ".intercalate items ++ "]"

/-- Named items between braces. -/
def braced (items : List (String × String)) : String :=
  "\x7b" ++ ", ".intercalate (items.map fun i => Text.quoted i.1 ++ ": " ++ i.2) ++ "\x7d"

/-- The debugging text of a value that is no array and no object. -/
def plainDebug : Value → String
  | .undefined => "undefined"
  | .null => "null"
  | .bool b => if b then "true" else "false"
  | .number n => Numeric.format n
  | .str s => Text.quoted s
  | .array _ | .object _ => ""
  | .closure id => "<closure " ++ (w.closure? id).elim "" Closure.displayName ++ ">"
  | .native name => "<native " ++ name ++ ">"

/-- The arrays and the objects that are open. -/
structure OpenThings where
  arrays : Opened := ∅
  objects : Opened := ∅

namespace OpenThings

/-- An array among what is open. -/
def arrayGuard (id : ArrayId) : Guard OpenThings where
  isOpen opened := opened.arrays.contains id
  enter opened := { opened with arrays := opened.arrays.insert id }
  leave opened := { opened with arrays := opened.arrays.erase id }

/-- An object among what is open. -/
def objectGuard (id : ObjectId) : Guard OpenThings where
  isOpen opened := opened.objects.contains id
  enter opened := { opened with objects := opened.objects.insert id }
  leave opened := { opened with objects := opened.objects.erase id }

end OpenThings

/-- The debugging text of a value; the state holds what is open. Each level opens another array or object of
the world, so as many levels as there are of both are enough. -/
def debugging : Nat → Value → StateM OpenThings String
  | fuel, value =>
    match value with
    | .array id => (OpenThings.arrayGuard id).write "<cycle>" <|
      match fuel with
      | 0 => pure (bracketed [])
      | fuel + 1 => do
        let texts ← (w.array id).toList.mapM (debugging fuel)
        pure (bracketed texts)
    | .object id => (OpenThings.objectGuard id).write "<cycle>" <|
      match fuel with
      | 0 => pure (braced [])
      | fuel + 1 => do
        let texts ← (w.object id).entries.mapM fun e => do
          let text ← debugging fuel e.2
          pure (e.1, text)
        pure (braced texts)
    | value => pure (w.plainDebug value)

def debug (value : Value) : String :=
  (w.debugging (w.arrays.size + w.objects.size) value {}).1

def optional (part : Option String) : String := part.elim "None" fun p => "Some(" ++ p ++ ")"

def nodeDebug (id : NodeId) : String := "NodeId(" ++ toString id ++ ")"

/-- The debugging text of a closure's record. -/
def closureDebug (c : Closure) : String :=
  "ClosureValue \x7b name: " ++ optional (c.name.map Text.quoted)
    ++ ", kind: " ++ (match c.kind with | .ordinary => "Ordinary" | .arrow => "Arrow")
    ++ ", params: " ++ toString c.params.length ++ ", node: " ++ nodeDebug c.node ++ ", .. \x7d"

/-- The debugging text of what is inside a value: one level of an array or object is opened before
anything counts as open, and a closure shows its record. -/
def inspect (value : Value) : String :=
  match value with
  | .array id => bracketed ((w.array id).toList.map w.debug)
  | .object id => braced ((w.object id).entries.map fun e => (e.1, w.debug e.2))
  | .closure id => (w.closure? id).elim "" closureDebug
  | value => w.debug value

def scopeDebug (s : ScopeId) : String :=
  let scope := w.scopes.get s
  "Scope \x7b name: " ++ optional (scope.name.map Text.quoted)
    ++ ", owner: " ++ optional (scope.owner.map nodeDebug)
    ++ ", names: " ++ bracketed (scope.cells.keys.map Text.quoted)
    ++ ", dynamic_context: " ++ (if scope.dynamic then "true" else "false") ++ ", .. \x7d"

/-- The debugging text of a resolved name: the owning scope, the name and the value found. -/
def referenceDebug (s : ScopeId) (name : String) (value : Value) : String :=
  "Reference \x7b scope: " ++ w.scopeDebug s ++ ", name: " ++ Text.quoted name
    ++ ", value: " ++ w.debug value ++ " \x7d"

end ScriptCore.World

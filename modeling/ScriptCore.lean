import ScriptCore.Data.Dict
import ScriptCore.Data.Entries
import ScriptCore.Data.Slots
import ScriptCore.Engine
import ScriptCore.Error
import ScriptCore.Eval.Assignment
import ScriptCore.Eval.Computation
import ScriptCore.Eval.Expression
import ScriptCore.Eval.Function
import ScriptCore.Eval.Machine
import ScriptCore.Eval.Pattern
import ScriptCore.Eval.Rule
import ScriptCore.Eval.Statement
import ScriptCore.Eval.Step
import ScriptCore.Hoist.Links
import ScriptCore.Hoist.Names
import ScriptCore.Hoist.Rule
import ScriptCore.Host.Native
import ScriptCore.Host.Rules
import ScriptCore.Host.Standard
import ScriptCore.Json.Basic
import ScriptCore.Json.Printer
import ScriptCore.Json.Reader
import ScriptCore.Numeric.Binary64
import ScriptCore.Numeric.Printer
import ScriptCore.Numeric.Reader
import ScriptCore.Numeric.Remainder
import ScriptCore.Numeric.Shortest
import ScriptCore.Numeric.Word
import ScriptCore.Scope.Cells
import ScriptCore.Scope.Graph
import ScriptCore.Scope.Liveness
import ScriptCore.Scope.Reach
import ScriptCore.Scope.Snapshot
import ScriptCore.Text.Blank
import ScriptCore.Text.Index
import ScriptCore.Text.IndexFacts
import ScriptCore.Text.Printable
import ScriptCore.Text.Quoted
import ScriptCore.Tree.Basic
import ScriptCore.Tree.Builder
import ScriptCore.Tree.Import
import ScriptCore.Tree.Tag
import ScriptCore.Tree.Walker
import ScriptCore.Value.Basic
import ScriptCore.Value.Closure
import ScriptCore.Value.Debug
import ScriptCore.Value.Opening
import ScriptCore.Value.Operator
import ScriptCore.Value.Picture
import ScriptCore.Value.Property
import ScriptCore.Value.Text
import ScriptCore.World
import ScriptCore.Proofs.Eval.Contract
import ScriptCore.Proofs.Scope.Change
import ScriptCore.Proofs.Hoist.Inside
import ScriptCore.Proofs.Tree.Targets
import ScriptCore.Proofs.Tree.Footprint
import ScriptCore.Proofs.Eval.Site
import ScriptCore.Proofs.Eval.SiteRules
import ScriptCore.Proofs.Eval.Entry
import ScriptCore.Proofs.Eval.Inside
import ScriptCore.Proofs.Eval.CallFrame
import ScriptCore.Proofs.Tree.Proper
import ScriptCore.Proofs.Hoist.Visits
import ScriptCore.Proofs.Hoist.Stamps
import ScriptCore.Proofs.Hoist.Declared
import ScriptCore.Proofs.Eval.Placement
import ScriptCore.Proofs.Tree.Grammar
import ScriptCore.Proofs.Eval.Orderly
import ScriptCore.Proofs.Eval.OrderlyExpression
import ScriptCore.Proofs.Eval.OrderlyStatement
import ScriptCore.Proofs.Eval.OrderlyCall
import ScriptCore.Proofs.Eval.Relink
import ScriptCore.Proofs.Eval.Safety
import ScriptCore.Proofs.Eval.Agreement
import ScriptCore.Proofs.Scope.Ancestry
import ScriptCore.Proofs.Scope.Forest
import ScriptCore.Proofs.Scope.Attachment
import ScriptCore.Proofs.Eval.Stack
import ScriptCore.Proofs.Eval.Follow
import ScriptCore.Proofs.Eval.Limits
import ScriptCore.Proofs.Scope.Frames
import ScriptCore.Proofs.Hoist.Frames
import ScriptCore.Proofs.Eval.Course
import ScriptCore.Proofs.Eval.Frames
import ScriptCore.Proofs.Eval.DynamicContext
import ScriptCore.Proofs.Value.Opening
import ScriptCore.Proofs.Value.Joining
import ScriptCore.Proofs.Value.Printing
import ScriptCore.Proofs.Hoist.Complete
import ScriptCore.Proofs.Eval.Halting
import ScriptCore.Proofs.Value.Circular
import ScriptCore.Proofs.Eval.Ending
import ScriptCore.Proofs.Eval.Containment
import ScriptCore.Proofs.Eval.Stretch
import ScriptCore.Proofs.Eval.Effect
import ScriptCore.Proofs.Eval.ArrayBound
import ScriptCore.Proofs.Scope.Shape
import ScriptCore.Proofs.Eval.Interlude
import ScriptCore.Proofs.Tree.Parts
import ScriptCore.Proofs.Eval.Evaluated
import ScriptCore.Proofs.Eval.Writing
import ScriptCore.Proofs.Eval.Declaration
import ScriptCore.Proofs.Eval.Reservation
import ScriptCore.Proofs.Scope.Layers
import ScriptCore.Proofs.Scope.Lookup
import ScriptCore.Proofs.Scope.Counting
import ScriptCore.Proofs.Scope.Holding
import ScriptCore.Proofs.Tree.Reading
import ScriptCore.Proofs.Tree.Postorder
import ScriptCore.Proofs.Tree.Tour
import ScriptCore.Proofs.Json.Essence
import ScriptCore.Proofs.Tree.Unflatten
import ScriptCore.Proofs.Numeric.Whole
import ScriptCore.Proofs.Value.Storing
import ScriptCore.Proofs.Value.Membership
import ScriptCore.Proofs.Tree.Pattern
import ScriptCore.Proofs.Eval.PatternNames
import ScriptCore.Proofs.Eval.Asking
import ScriptCore.Proofs.Eval.Enumeration
import ScriptCore.Proofs.Eval.Destructuring
import ScriptCore.Proofs.Value.Deleting
import ScriptCore.Proofs.Eval.Deleting
import ScriptCore.Proofs.Json.Path
import ScriptCore.Proofs.Tree.Faults
import ScriptCore.Proofs.Eval.Equivalence
import ScriptCore.Proofs.Eval.Chain
import ScriptCore.Proofs.Eval.Compound
import ScriptCore.Proofs.Eval.CallScope
import ScriptCore.Proofs.Hoist.Targets
import ScriptCore.Proofs.Hoist.Listed
import ScriptCore.Proofs.Eval.Reaching
import ScriptCore.Proofs.Eval.Activations
import ScriptCore.Proofs.Eval.Instantiation
import ScriptCore.Proofs.Numeric.Literals
import ScriptCore.Proofs.Value.Comparing
import ScriptCore.Proofs.Eval.Unwinding
import ScriptCore.Proofs.Eval.Switching
import ScriptCore.Proofs.Numeric.Exactness
import ScriptCore.Proofs.Numeric.Decimals
import ScriptCore.Proofs.Numeric.Layout
import ScriptCore.Proofs.Value.Keys
import ScriptCore.Proofs.Value.Bitwise
import ScriptCore.Proofs.Tree.Walk

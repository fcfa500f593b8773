import ScriptCore.Eval.Step
import ScriptCore.Host.Native
import ScriptCore.Host.Rules

/-!
# The standard host

A host with the functions and rules of this folder, and the evaluator that has it.
-/
namespace ScriptCore

namespace Host

/-- The host with the functions of `Host.Native` and the rules of `Host.Rules`. -/
def standard : Host where
  native := Native.find?
  rule := Rules.find?
  hoistRule := Rules.findHoist?

end Host

namespace Evaluator

def standard : Evaluator where
  resolver := { host := Host.standard.hoistRule }
  host := Host.standard

theorem standard_rules : standard.rules = RuleTable.default := by rw [standard]

theorem standard_resolver : standard.resolver.rules = Hoist.defaultRules := by rw [standard]

end Evaluator

end ScriptCore

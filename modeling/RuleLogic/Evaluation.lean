import RuleLogic.Expr
import RuleLogic.Path
import RuleLogic.Comparison
import RuleLogic.Connective

/-!
The value of an expression in a context. A reference without a value is nil; operands are evaluated
from left to right, a connective only as far as it is undecided, and the first fault is the answer.
The limit is on the levels of nesting.
-/
namespace RuleLogic

def Reference.evaluate (r : Reference) (data : Context) : Except EvalFault Value :=
  match data.resolve r.path with
  | .error fault => .error fault
  | .ok ⟨_, none⟩ => .ok .nil
  | .ok ⟨_, some v⟩ =>
    match v.cast r.type with
    | .ok w => .ok w
    | .error e => .error (.conversion e)

namespace Expr

def truth (op : LogicalOp) (v : Value) : Except EvalFault Bool :=
  match v with
  | .boolean b => .ok b
  | _ => .error (.notBoolean op)

mutual

def evaluateAt (limit : Nat) (data : Context) (level : Nat) (e : Expr) : Except EvalFault Value :=
  if limit ≤ level then .error (.tooDeep limit)
  else match e with
    | literal l => .ok l.toValue
    | reference r => r.evaluate data
    | collection items _ => .list <$> evaluateEach limit data (level + 1) items
    | comparison op operands _ => do
      return .boolean (op.holds (← evaluateEach limit data (level + 1) operands))
    | logical op operands _ => .boolean <$> evaluateLogical limit data op false (level + 1) operands

def evaluateEach (limit : Nat) (data : Context) (level : Nat) :
    List Expr → Except EvalFault (List Value)
  | [] => .ok []
  | e :: rest => do
    return (← evaluateAt limit data level e) :: (← evaluateEach limit data level rest)

/-- The result of a connective for the operands from here on. -/
def evaluateLogical (limit : Nat) (data : Context) (op : LogicalOp) (seenTrue : Bool)
    (level : Nat) : List Expr → Except EvalFault Bool
  | [] => .ok (op.undecided seenTrue)
  | e :: rest => do
    let b ← truth op (← evaluateAt limit data level e)
    match op.decides? seenTrue b with
    | some result => .ok result
    | none => evaluateLogical limit data op (seenTrue || b) level rest

end

def evaluate (limit : Nat) (data : Context) (e : Expr) : Except EvalFault Value :=
  e.evaluateAt limit data 0

def ownLimit (e : Expr) : Nat := (e.options?.map (·.maxDepth)).getD Options.defaultMaxDepth

end Expr

end RuleLogic

import RuleLogic.Evaluation
import RuleLogic.Expr.Statement
import RuleLogic.Expr.Writer

/-!
Simplifying an expression in a context that may not be complete. What can be settled becomes a
value; references that are missing, ignored or cannot be cast stay. Collections and comparisons are
settled as a whole or not at all, and a connective keeps the operands that are left to decide it.
-/
namespace RuleLogic

inductive Simplified where
  | value (v : Value)
  | rest (e : Expr)
deriving Inhabited

namespace Simplified

def isValue : Simplified → Bool
  | value _ => true
  | rest _ => false

def text : Simplified → String
  | value v => v.text
  | rest e => e.statement

def toJson : Simplified → Json
  | value v => v.toJson
  | rest e => e.toJson

end Simplified

def Reference.settle? (r : Reference) (data : Context) : Option Value :=
  match data.resolve r.path with
  | .error _ => none
  | .ok ⟨path, value⟩ =>
    if r.isIgnored path then none
    else value.bind fun v => (v.cast r.type).toOption

namespace Expr

/-- What a connective comes to when the operands left over are these and the others did not decide
it. -/
def leftOver (o : Options) (op : LogicalOp) (seenTrue : Bool) : List Expr → Simplified
  | [] => .value (.boolean (op.undecided seenTrue))
  | [e] => .rest (if op.negates seenTrue then negate o e else e)
  | operands => .rest (logical (op.remaining seenTrue) operands o)

mutual

def simplifyAt (limit : Nat) (data : Context) (level : Nat) (e : Expr) : Simplified :=
  if limit ≤ level then .rest e
  else match e with
    | literal l => .value l.toValue
    | reference r =>
      match r.settle? data with
      | some v => .value v
      | none => .rest (reference r)
    | collection items o =>
      match settleEach limit data (level + 1) items with
      | some values => .value (.list values)
      | none => .rest (collection items o)
    | comparison op operands o =>
      match settleEach limit data (level + 1) operands with
      | some values => .value (.boolean (op.holds values))
      | none => .rest (comparison op operands o)
    | logical op operands o => simplifyLogical limit data o op false [] (level + 1) operands

def settleEach (limit : Nat) (data : Context) (level : Nat) : List Expr → Option (List Value)
  | [] => some []
  | e :: rest =>
    match simplifyAt limit data level e with
    | .value v => (settleEach limit data level rest).map (v :: ·)
    | .rest _ => none

/-- A connective for the operands from here on; `kept` holds those left over, the last one first. An
operand that is settled to no truth value is kept as it was. -/
def simplifyLogical (limit : Nat) (data : Context) (o : Options) (op : LogicalOp) (seenTrue : Bool)
    (kept : List Expr) (level : Nat) : List Expr → Simplified
  | [] => leftOver o op seenTrue kept.reverse
  | e :: rest =>
    match simplifyAt limit data level e with
    | .value (.boolean b) =>
      match op.decides? seenTrue b with
      | some result => .value (.boolean result)
      | none => simplifyLogical limit data o op (seenTrue || b) kept level rest
    | .value _ => simplifyLogical limit data o op seenTrue (e :: kept) level rest
    | .rest r => simplifyLogical limit data o op seenTrue (r :: kept) level rest

end

/-- What an expression comes to in a context, parts beyond `limit` levels left alone. -/
def simplify (limit : Nat) (data : Context) (e : Expr) : Simplified := e.simplifyAt limit data 0

end Expr

end RuleLogic

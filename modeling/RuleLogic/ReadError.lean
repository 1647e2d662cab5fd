import RuleLogic.Json.Printer
import RuleLogic.Cast
import RuleLogic.Operator

/-!
Why a document is no expression. A fault names the item it lies in; an error adds what the outermost
list around that item was taken for.
-/
namespace RuleLogic

/-- The reason why an item is refused. Operators come with the token they go by. -/
inductive Fault where
  | tooDeep (limit : Nat) (item : Json)
  | missing
  | emptyList
  | notOperand (item : Json)
  | emptyCollection
  | operandCount (op : Operator) (token : String)
  | unsupportedType (name address : String)
deriving Repr

/-- What a list was taken for when one of its items was refused: a collection because no string
heads it, a collection because its head is no operator, or an expression. -/
inductive Surrounding where
  | headless
  | unknownHead
  | expression
deriving DecidableEq, Repr

structure ReadError where
  fault : Fault
  surrounding : Option Surrounding
deriving Repr

namespace Fault

def countMessage (op : Operator) (token : String) : String :=
  match op with
  | .comparison op =>
    let noun := if op.arity == 1 then "operand" else "operands"
    s!"comparison {token} expression must have exactly {op.arity} {noun}"
  | .logical op =>
    if op.isUnary then s!"logical {token} expression must have exactly 1 operand"
    else s!"logical {token} expression must have at least {op.minOperands} operands"

def message : Fault → String
  | tooDeep limit _ => s!"maximum nesting depth of {limit} exceeded"
  | missing => "unexpected input"
  | emptyList => "invalid undefined operand"
  | notOperand item => "invalid operand, " ++ item.text
  | emptyCollection => "collection operand must have at least 1 item"
  | operandCount op token => countMessage op token
  | unsupportedType name _ => DataType.unsupportedMessage name

def expression : Fault → String
  | tooDeep _ item => item.text
  | missing => "null"
  | emptyList => "[]"
  | notOperand item => item.text
  | emptyCollection => "[]"
  | operandCount _ token => token
  | unsupportedType _ address => address

end Fault

namespace ReadError

def of (fault : Fault) : ReadError := ⟨fault, none⟩

def inside (surrounding : Surrounding) (e : ReadError) : ReadError := ⟨e.fault, some surrounding⟩

end ReadError

end RuleLogic

import RuleLogic.Operator

/-!
Connectives read their operands from left to right and stop at the first that decides. All that
counts of the operands before is whether one of them was true.
-/
namespace RuleLogic.LogicalOp

/-- The result that an operand decides, given whether an earlier one was true: a false one for
`and`, a true one for `or`, `nor` and `not`, a second true one for `xor`. -/
def decides? (op : LogicalOp) (seenTrue operand : Bool) : Option Bool :=
  match op with
  | and => if operand then none else some false
  | or => if operand then some true else none
  | nor => if operand then some false else none
  | not => if operand then some false else none
  | xor => if operand && seenTrue then some false else none

def undecided (op : LogicalOp) (seenTrue : Bool) : Bool :=
  match op with
  | and => true
  | or => false
  | nor => true
  | not => true
  | xor => seenTrue

/-- Whether what is left of the operands has to be false for the result to be true. -/
def negates (op : LogicalOp) (seenTrue : Bool) : Bool :=
  match op with
  | and => false
  | or => false
  | nor => true
  | not => true
  | xor => seenTrue

/-- The connective of two or more operands that are left: one true operand turns `xor` to `nor`. -/
def remaining (op : LogicalOp) (seenTrue : Bool) : LogicalOp :=
  match op with
  | xor => if seenTrue then nor else xor
  | op => op

end RuleLogic.LogicalOp

import RuleLogic.Expr

/-!
The statement of an expression, for people to read: references in braces, operators by their symbols
between the operands, every expression in parentheses.
-/
namespace RuleLogic.Expr

/-- Operands around the symbol of a comparison; with one operand the symbol comes after it. -/
def comparisonText (symbol : String) : List String → String
  | [] => "(" ++ symbol ++ ")"
  | first :: rest => "(" ++ " ".intercalate (first :: symbol :: rest) ++ ")"

def logicalText (op : LogicalOp) (operands : List String) : String :=
  if op.isUnary then "(" ++ op.symbol ++ " " ++ " ".intercalate operands ++ ")"
  else "(" ++ (" " ++ op.symbol ++ " ").intercalate operands ++ ")"

mutual

def statement : Expr → String
  | literal l => l.text
  | reference r => "\x7b" ++ r.address ++ "\x7d"
  | collection items _ => "[" ++ ", ".intercalate (statements items) ++ "]"
  | comparison op operands _ => comparisonText op.symbol (statements operands)
  | logical op operands _ => logicalText op (statements operands)

def statements : List Expr → List String
  | [] => []
  | e :: rest => e.statement :: statements rest

end

end RuleLogic.Expr

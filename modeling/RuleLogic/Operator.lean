/-!
The operators of expressions: five connectives and thirteen comparisons. Each has a name for
configurations, a symbol for statements, and a default token that heads its lists in documents.
-/
namespace RuleLogic

inductive LogicalOp where
  | and
  | or
  | nor
  | xor
  | not
deriving DecidableEq, Repr

inductive ComparisonOp where
  | equal
  | unequal
  | greater
  | atLeast
  | less
  | atMost
  | isIn
  | notIn
  | overlap
  | starts
  | ends
  | isNil
  | present
deriving DecidableEq, Repr

inductive Operator where
  | logical (op : LogicalOp)
  | comparison (op : ComparisonOp)
deriving DecidableEq, Repr

namespace LogicalOp

def all : List LogicalOp := [and, or, nor, xor, not]

theorem mem_all (op : LogicalOp) : op ∈ all := by cases op <;> decide

def name : LogicalOp → String
  | and => "And"
  | or => "Or"
  | nor => "Nor"
  | xor => "Xor"
  | not => "Not"

def symbol : LogicalOp → String
  | and => "AND"
  | or => "OR"
  | nor => "NOR"
  | xor => "XOR"
  | not => "NOT"

def isUnary : LogicalOp → Bool
  | not => true
  | _ => false

def minOperands (op : LogicalOp) : Nat := if op.isUnary then 1 else 2

def accepts (op : LogicalOp) (count : Nat) : Bool :=
  if op.isUnary then count == 1 else op.minOperands ≤ count

end LogicalOp

namespace ComparisonOp

def all : List ComparisonOp :=
  [equal, unequal, greater, atLeast, less, atMost, isIn, notIn, overlap, starts, ends, isNil,
    present]

theorem mem_all (op : ComparisonOp) : op ∈ all := by cases op <;> decide

def name : ComparisonOp → String
  | equal => "Eq"
  | unequal => "Ne"
  | greater => "Gt"
  | atLeast => "Ge"
  | less => "Lt"
  | atMost => "Le"
  | isIn => "In"
  | notIn => "Nin"
  | overlap => "Overlap"
  | starts => "Prefix"
  | ends => "Suffix"
  | isNil => "Nil"
  | present => "Present"

def symbol : ComparisonOp → String
  | equal => "=="
  | unequal => "!="
  | greater => ">"
  | atLeast => ">="
  | less => "<"
  | atMost => "<="
  | isIn => "<in>"
  | notIn => "<not in>"
  | overlap => "<overlaps>"
  | starts => "<prefixes>"
  | ends => "<with suffix>"
  | isNil => "<is nil>"
  | present => "<is present>"

def arity : ComparisonOp → Nat
  | isNil => 1
  | present => 1
  | _ => 2

/-- A word where the symbol is spelled in angle brackets, the symbol itself elsewhere. -/
def defaultToken : ComparisonOp → String
  | isIn => "IN"
  | notIn => "NOT IN"
  | overlap => "OVERLAP"
  | starts => "PREFIX"
  | ends => "SUFFIX"
  | isNil => "NIL"
  | present => "PRESENT"
  | op => op.symbol

end ComparisonOp

namespace Operator

def all : List Operator := LogicalOp.all.map logical ++ ComparisonOp.all.map comparison

theorem mem_all (op : Operator) : op ∈ all := by
  cases op with
  | logical op => simp [all, op.mem_all]
  | comparison op => simp [all, op.mem_all]

def name : Operator → String
  | logical op => op.name
  | comparison op => op.name

def symbol : Operator → String
  | logical op => op.symbol
  | comparison op => op.symbol

def defaultToken : Operator → String
  | logical op => op.symbol
  | comparison op => op.defaultToken

def accepts (op : Operator) (count : Nat) : Bool :=
  match op with
  | logical op => op.accepts count
  | comparison op => count == op.arity

def ofName? (name : String) : Option Operator := all.find? (·.name == name)

end Operator

end RuleLogic

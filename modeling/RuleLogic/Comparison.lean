import RuleLogic.Operator
import RuleLogic.Value

/-!
What the comparisons say of values. Values of different kinds are never equal and never ordered, and
a comparison of the wrong number of values does not hold.
-/
namespace RuleLogic

namespace Value

def compare? : Value → Value → Option Ordering
  | integer a, integer b => some (compare a.toInt b.toInt)
  | float a, float b => a.compare? b
  | _, _ => none

/-- Whether a value is found in a list, if exactly one of the two is a list. -/
def membership? : Value → Value → Option Bool
  | list _, list _ => none
  | list items, v => some (items.any (·.equals v))
  | v, list items => some (items.any (·.equals v))
  | _, _ => none

def overlaps : Value → Value → Bool
  | list xs, list ys => xs.any fun x => ys.any x.equals
  | _, _ => false

def starts : Value → Value → Bool
  | string head, string s => head.toList.isPrefixOf s.toList
  | _, _ => false

def ends : Value → Value → Bool
  | string s, string tail => tail.toList.isSuffixOf s.toList
  | _, _ => false

end Value

namespace ComparisonOp

def holdsOfOne (op : ComparisonOp) (a : Value) : Bool :=
  match op with
  | isNil => a.isNil
  | present => !a.isNil
  | _ => false

def holdsOfTwo (op : ComparisonOp) (a b : Value) : Bool :=
  match op with
  | equal => a.equals b
  | unequal => !a.equals b
  | greater => a.compare? b == some .gt
  | atLeast => a.compare? b == some .gt || a.compare? b == some .eq
  | less => a.compare? b == some .lt
  | atMost => a.compare? b == some .lt || a.compare? b == some .eq
  | isIn => (a.membership? b).getD false
  | notIn => !(a.membership? b).getD false
  | overlap => a.overlaps b
  | starts => a.starts b
  | ends => a.ends b
  | isNil => false
  | present => false

def holds (op : ComparisonOp) : List Value → Bool
  | [a] => op.holdsOfOne a
  | [a, b] => op.holdsOfTwo a b
  | _ => false

end ComparisonOp

end RuleLogic

import RuleLogic.Json
import RuleLogic.Double.Layout

/-!
Runtime values. Two values are comparable when both are missing or both are scalars of one kind, and
values of different kinds are never equal. Documents hold every value but a double that is not
finite, which becomes null like a missing one.
-/
namespace RuleLogic

/-- What an expression evaluates to. `nil` stands for a missing value; lists only come from
collections. -/
inductive Value where
  | nil
  | boolean (b : Bool)
  | integer (n : Int64)
  | float (x : Double)
  | string (s : String)
  | list (items : List Value)
deriving Inhabited, Repr

inductive Kind where
  | boolean
  | integer
  | float
  | string
  | list
deriving DecidableEq, Repr

def Kind.name : Kind → String
  | boolean => "Boolean"
  | integer => "Integer"
  | float => "Float"
  | string => "String"
  | list => "List"

namespace Value

def kind? : Value → Option Kind
  | nil => none
  | boolean _ => some .boolean
  | integer _ => some .integer
  | float _ => some .float
  | string _ => some .string
  | list _ => some .list

def isNil : Value → Bool
  | nil => true
  | _ => false

def boolean? : Value → Option Bool
  | boolean b => some b
  | _ => none

mutual

/-- Equality of data, doubles compared as numbers. -/
def same : Value → Value → Bool
  | nil, nil => true
  | boolean a, boolean b => a == b
  | integer a, integer b => a == b
  | float a, float b => a.same b
  | string a, string b => a == b
  | list xs, list ys => sameEach xs ys
  | _, _ => false

def sameEach : List Value → List Value → Bool
  | [], [] => true
  | x :: xs, y :: ys => same x y && sameEach xs ys
  | _, _ => false

end

def comparable (a b : Value) : Bool :=
  match a.kind?, b.kind? with
  | none, none => true
  | some .list, _ => false
  | some k, some l => k == l
  | _, _ => false

def equals (a b : Value) : Bool := a.comparable b && a.same b

mutual

def text : Value → String
  | nil => "nil"
  | boolean b => if b then "true" else "false"
  | integer n => String.ofList (Decimal.ofInt64 n)
  | float x => String.ofList x.plain
  | string s => s
  | list items => "[" ++ ", ".intercalate (texts items) ++ "]"

def texts : List Value → List String
  | [] => []
  | item :: rest => item.text :: texts rest

end

mutual

def toJson : Value → Json
  | nil => .null
  | boolean b => .boolean b
  | integer n => .number (.integer n)
  | float x => ((Number.ofDouble? x).map .number).getD .null
  | string s => .string s
  | list items => .array (toJsons items)

def toJsons : List Value → List Json
  | [] => []
  | item :: rest => item.toJson :: toJsons rest

end

def ofNumber : Number → Value
  | .integer n => .integer n
  | .large n => .float (.ofInt n.toNat)
  | .double x _ => .float x

def ofScalar? : Json → Option Value
  | .boolean b => some (.boolean b)
  | .number n => some (ofNumber n)
  | .string s => some (.string s)
  | _ => none

end Value

end RuleLogic

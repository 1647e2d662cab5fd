import RuleLogic.Options
import RuleLogic.ReadError

/-!
Expressions: literals, references into a context, collections, comparisons and connectives. All but
literals carry the options that they were made with, which decide how they are written.
-/
namespace RuleLogic

inductive Literal where
  | boolean (b : Bool)
  | integer (n : Int64)
  | float (x : Double)
  | string (s : String)
deriving DecidableEq, Repr

namespace Literal

def toValue : Literal → Value
  | boolean b => .boolean b
  | integer n => .integer n
  | float x => .float x
  | string s => .string s

def ofNumber : Number → Literal
  | .integer n => .integer n
  | .large n => .float (.ofInt n.toNat)
  | .double x _ => .float x

def ofJson? : Json → Option Literal
  | .boolean b => some (.boolean b)
  | .number n => some (ofNumber n)
  | .string s => some (.string s)
  | _ => none

def toJson (l : Literal) : Json := l.toValue.toJson

def text : Literal → String
  | string s => "\"" ++ s ++ "\""
  | l => l.toValue.text

def boolean? : Literal → Option Bool
  | boolean b => some b
  | _ => none

theorem ofJson?_toValue (data : Json) :
    (ofJson? data).map toValue = Value.ofScalar? data := by
  cases data with
  | number n => cases n <;> rfl
  | _ => rfl

end Literal

/-- A look-up in the context. The address is the text between the affixes; the path is the part of
it before a type suffix. -/
structure Reference where
  address : String
  path : String
  type : DataType
  options : Options

namespace Reference

def splitOpening : List Char → List Char → Option (List Char × List Char)
  | name, '(' :: '.' :: before => some (before.reverse, name)
  | name, c :: before => splitOpening (c :: name) before
  | _, [] => none

def isTypeName : List Char → Bool
  | first :: second :: rest => first.isUpper && (second :: rest).all Char.isLower
  | _ => false

/-- The path and the type name of an address such as `path.(Name)`. -/
def typeSuffix? (address : String) : Option (String × String) :=
  match address.toList.reverse with
  | ')' :: before =>
    match splitOpening [] before with
    | some (c :: path, name) =>
      if isTypeName name then some (String.ofList (c :: path), String.ofList name) else none
    | _ => none
  | _ => none

def ofAddress (o : Options) (address : String) : Except Fault Reference :=
  match typeSuffix? address with
  | none => .ok ⟨address, address, .undefined, o⟩
  | some (path, name) =>
    match DataType.ofName? name with
    | some type => .ok ⟨address, path, type, o⟩
    | none => .error (.unsupportedType name address)

def written (r : Reference) : String :=
  match r.type with
  | .undefined => r.path
  | type => r.path ++ ".(" ++ type.name ++ ")"

def isIgnored (r : Reference) (path : String) : Bool := r.options.ignored.contains path

end Reference

inductive Expr where
  | literal (value : Literal)
  | reference (r : Reference)
  | collection (items : List Expr) (options : Options)
  | comparison (op : ComparisonOp) (operands : List Expr) (options : Options)
  | logical (op : LogicalOp) (operands : List Expr) (options : Options)
deriving Inhabited

namespace Expr

def options? : Expr → Option Options
  | literal _ => none
  | reference r => some r.options
  | collection _ o => some o
  | comparison _ _ o => some o
  | logical _ _ o => some o

def literal? : Expr → Option Literal
  | literal l => some l
  | _ => none

def apply (o : Options) (op : Operator) (operands : List Expr) : Expr :=
  match op with
  | .logical op => logical op operands o
  | .comparison op => comparison op operands o

def collect (o : Options) (items : List Expr) : Except Fault Expr :=
  if items.isEmpty then .error .emptyCollection else .ok (collection items o)

def build (o : Options) (op : Operator) (operands : List Expr) : Except Fault Expr :=
  if op.accepts operands.length then .ok (apply o op operands)
  else .error (.operandCount op (o.operators.token op))

def negate (o : Options) (e : Expr) : Expr := logical .not [e] o

end Expr

end RuleLogic

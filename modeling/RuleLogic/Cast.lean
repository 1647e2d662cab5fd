import RuleLogic.Value
import RuleLogic.Blank

/-!
Casts asked for by a type suffix. Missing values pass every cast. Numbers are read from strings in
two ways: the `Number` cast takes plain digits or `digits.digits`, the others any finite number,
blanks around it allowed.
-/
namespace RuleLogic

/-- The type that a reference asks for; `undefined` asks for none. -/
inductive DataType where
  | undefined
  | number
  | integer
  | float
  | string
  | boolean
deriving DecidableEq, Repr

namespace DataType

def name : DataType → String
  | undefined => "Undefined"
  | number => "Number"
  | integer => "Integer"
  | float => "Float"
  | string => "String"
  | boolean => "Boolean"

def castable : List DataType := [number, integer, float, string, boolean]

def ofName? (name : String) : Option DataType := castable.find? (·.name == name)

end DataType

def DataType.unsupportedMessage (name : String) : String := s!"unsupported \"{name}\" type casting"

structure CastError where
  value : Value
  target : DataType
deriving Repr

def CastError.message (e : CastError) : String :=
  let kind := (e.value.kind?.map Kind.name).getD "Nil"
  s!"invalid conversion from \"{e.value.text}\" ({kind}) to {e.target.name}"

namespace Cast

def finite? (s : String) : Option Double :=
  (Double.read? (trimBlank s.toList)).filter (·.isFinite)

/-- A whole number without leading zeros, or digits on both sides of one point. -/
def numeral? (s : String) : Option Value :=
  let cs := s.toList
  let whole := cs.takeWhile (· != '.')
  match cs.dropWhile (· != '.') with
  | [] =>
    if Decimal.areDigits whole && (whole == ['0'] || whole.head? != some '0') then
      (Decimal.int64OfDigits? whole).map .integer
    else none
  | _ :: fraction =>
    if Decimal.areDigits whole && Decimal.areDigits fraction then (finite? s).map .float else none

def toNumber? : Value → Option Value
  | .integer n => some (.integer n)
  | .float x => if x.isFinite then some (.float x) else none
  | .boolean b => some (.integer (if b then 1 else 0))
  | .string s => numeral? s
  | _ => none

def toInteger? : Value → Option Value
  | .integer n => some (.integer n)
  | .float x => x.truncate?.map .integer
  | .boolean b => some (.integer (if b then 1 else 0))
  | .string s => ((finite? s).bind (·.truncate?)).map .integer
  | _ => none

def toFloat? : Value → Option Value
  | .integer n => some (.float (.ofInt n.toInt))
  | .float x => if x.isFinite then some (.float x) else none
  | .boolean b => some (.float (.ofInt (if b then 1 else 0)))
  | .string s => (finite? s).map .float
  | _ => none

/-- Truth values, the integers 0 and 1, and their words in any case. -/
def toBoolean? : Value → Option Value
  | .boolean b => some (.boolean b)
  | .integer n =>
    if n = 0 then some (.boolean false)
    else if n = 1 then some (.boolean true)
    else none
  | .string s =>
    let word := String.ofList ((trimBlank s.toList).map Char.toLower)
    if word == "true" || word == "1" then some (.boolean true)
    else if word == "false" || word == "0" then some (.boolean false)
    else none
  | _ => none

def toString? : Value → Option Value
  | .list _ => none
  | .float x => if x.isFinite then some (.string (Value.text (.float x))) else none
  | v => some (.string v.text)

def to? : DataType → Value → Option Value
  | .undefined => some
  | .number => toNumber?
  | .integer => toInteger?
  | .float => toFloat?
  | .string => toString?
  | .boolean => toBoolean?

end Cast

def Value.cast (v : Value) (target : DataType) : Except CastError Value :=
  match v with
  | .nil => .ok .nil
  | v =>
    match Cast.to? target v with
    | some w => .ok w
    | none => .error ⟨v, target⟩

end RuleLogic

import RuleLogic.Double.Rounding

/-!
Documents. Object members keep the order in which they were written.
-/
namespace RuleLogic

/-- A number of a document: a 64-bit integer; a whole number that only fits 64 bits without a sign,
which keeps its digits in print and otherwise counts as a double; or a finite double. -/
inductive Number where
  | integer (n : Int64)
  | large (n : UInt64)
  | double (x : Double) (finite : x.isFinite = true)
deriving DecidableEq, Repr

namespace Number

def ofDouble? (x : Double) : Option Number :=
  if h : x.isFinite = true then some (.double x h) else none

def ofNat? (n : Nat) : Option Number :=
  match int64? n with
  | some i => some (.integer i)
  | none => if h : n < UInt64.size then some (.large (.ofNatLT n h)) else ofDouble? (.ofInt n)

/-- A whole number, the greatest double in place of those beyond all doubles. -/
def ofNat (n : Nat) : Number := (ofNat? n).getD (.double (.finite false .greatest) rfl)

end Number

inductive Json where
  | null
  | boolean (b : Bool)
  | number (n : Number)
  | string (s : String)
  | array (items : List Json)
  | object (members : List (String × Json))
deriving Inhabited, Repr

namespace Json

def member? (key : String) : Json → Option Json
  | .object members => members.lookup key
  | _ => none

end Json

end RuleLogic

import RuleLogic.Double.Rounding

/-!
Numbers written in tens. `Decimal.read?` reads an optional sign, digits with at most one point, and
an optional exponent; at least one digit stands beside the point, and the text ends with the number.
-/
namespace RuleLogic

/-- The number `digits * 10 ^ exponent`, negated if asked. -/
structure Decimal where
  negative : Bool
  digits : Nat
  exponent : Int
deriving DecidableEq, Repr

namespace Decimal

def natOfDigits (digits : List Char) : Nat := Nat.ofDigitChars 10 digits 0

def areDigits (cs : List Char) : Bool := !cs.isEmpty && cs.all Char.isDigit

def splitSign : List Char → Bool × List Char
  | '-' :: cs => (true, cs)
  | '+' :: cs => (false, cs)
  | cs => (false, cs)

def readExponent? : List Char → Option Int
  | [] => some 0
  | c :: cs =>
    let (negative, digits) := splitSign cs
    if (c = 'e' ∨ c = 'E') ∧ areDigits digits then
      some (Double.signed negative (natOfDigits digits))
    else none

def splitFraction : List Char → List Char × List Char
  | '.' :: cs => (cs.takeWhile Char.isDigit, cs.dropWhile Char.isDigit)
  | cs => ([], cs)

theorem natOfDigits_toDigits (n : Nat) : natOfDigits (Nat.toDigits 10 n) = n :=
  Nat.ofDigitChars_ten_toDigits

theorem areDigits_toDigits (n : Nat) : areDigits (Nat.toDigits 10 n) = true := by
  simp only [areDigits, Bool.and_eq_true, Bool.not_eq_true', List.isEmpty_eq_false_iff,
    List.all_eq_true]
  exact ⟨Nat.toDigits_ne_nil, fun c => Nat.isDigit_of_mem_toDigits (by decide) (by decide)⟩

def read? (cs : List Char) : Option Decimal :=
  let (negative, cs) := splitSign cs
  let whole := cs.takeWhile Char.isDigit
  let (fraction, cs) := splitFraction (cs.dropWhile Char.isDigit)
  if whole.isEmpty && fraction.isEmpty then none
  else (readExponent? cs).map fun exponent =>
    ⟨negative, natOfDigits (whole ++ fraction), exponent - fraction.length⟩

def toDouble (d : Decimal) : Double := .ofDecimal d.negative d.digits d.exponent

def ofInt64 (n : Int64) : List Char :=
  let digits := Nat.toDigits 10 n.toInt.natAbs
  if n < 0 then '-' :: digits else digits

def int64OfDigits? (digits : List Char) : Option Int64 := int64? (natOfDigits digits)

end Decimal

namespace Double

/-- The words for the numbers that have no digits, in any case. -/
def ofWord? (negative : Bool) (cs : List Char) : Option Double :=
  let word := cs.map Char.toLower
  if word = "nan".toList then some .nan
  else if word = "inf".toList ∨ word = "infinity".toList then some (.infinite negative)
  else none

/-- The double that a text denotes, rounded to nearest. -/
def read? (cs : List Char) : Option Double :=
  match Decimal.read? cs with
  | some d => some d.toDouble
  | none => let (negative, word) := Decimal.splitSign cs; ofWord? negative word

end Double

end RuleLogic

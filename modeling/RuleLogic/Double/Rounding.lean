import RuleLogic.Double

/-!
Rounding to doubles and back to whole numbers. A quotient goes to the nearest double, a half to the
even mantissa; a double is cut toward zero to a 64-bit integer when it fits one.
-/
namespace RuleLogic

def roundHalfEven (num den : Nat) : Nat :=
  let q := num / den
  let r := 2 * (num % den)
  if den < r ∨ (r = den ∧ q % 2 = 1) then q + 1 else q

namespace Double

/-- The double nearest to `num / den`, infinite beyond the last finite one. -/
def ofRatio (negative : Bool) (num den : Nat) : Double :=
  let steps := num <<< 1074
  let exponent := (steps / den).log2 - 52
  let mantissa := roundHalfEven steps (den <<< exponent)
  let magnitude :=
    if mantissa = 1 <<< 53 then Magnitude.ofParts? (1 <<< 52) (exponent + 1)
    else Magnitude.ofParts? mantissa exponent
  match magnitude with
  | some m => .finite negative m
  | none => .infinite negative

def ofInt (n : Int) : Double := ofRatio (n < 0) n.natAbs 1

/-- The double nearest to `digits * 10 ^ exponent`. Values beyond every finite double, and those
under half of the least positive one, are settled without the power of ten. -/
def ofDecimal (negative : Bool) (digits : Nat) (exponent : Int) : Double :=
  if digits = 0 then .finite negative .zero
  else if 400 < exponent then .infinite negative
  else if digits.log2 + 1 + 3 * exponent ≤ -1080 then .finite negative .zero
  else if 0 ≤ exponent then ofRatio negative (digits * Nat.pow 10 exponent.toNat) 1
  else ofRatio negative digits (Nat.pow 10 (-exponent).toNat)

def truncate? : Double → Option Int64
  | .finite negative m => int64? (signed negative (m.steps >>> 1074))
  | _ => none

end Double

end RuleLogic

import RuleLogic.Decimal
import RuleLogic.Double.Shortest

/-!
The two written forms of a double, both with the fewest digits that read back. Documents keep a
digit after the point and turn to an exponent from `10 ^ 16` up and below `10 ^ -5`; plain text
spells every place out and drops an empty fraction.
-/
namespace RuleLogic

namespace Double

/-- `digits * 10 ^ place` without an exponent; `whole` ends a number that has no fraction. -/
def positional (whole : List Char) (digits : List Char) (place : Int) : List Char :=
  let point := digits.length + place
  if 0 ≤ place then digits ++ List.replicate place.toNat '0' ++ whole
  else if 0 < point then digits.take point.toNat ++ '.' :: digits.drop point.toNat
  else '0' :: '.' :: (List.replicate (-point).toNat '0' ++ digits)

def scientific (digits : List Char) (exponent : Int) : List Char :=
  let mantissa := match digits with
    | first :: second :: rest => first :: '.' :: second :: rest
    | short => short
  let sign := if exponent < 0 then '-' else '+'
  mantissa ++ 'e' :: sign :: Nat.toDigits 10 exponent.natAbs

def withSign (negative : Bool) (cs : List Char) : List Char :=
  if negative then '-' :: cs else cs

/-- The form inside documents, which have none for numbers that are not finite. -/
def document? : Double → Option (List Char)
  | .finite negative m => some <| withSign negative <|
    if m.mantissa = 0 then "0.0".toList
    else
      let (digits, place) := m.shortest .even
      let digits := Nat.toDigits 10 digits
      let exponent := digits.length + place - 1
      if -5 ≤ exponent ∧ exponent < 16 then positional ".0".toList digits place
      else scientific digits exponent
  | _ => none

/-- The form inside plain text. -/
def plain : Double → List Char
  | .nan => "NaN".toList
  | .infinite negative => withSign negative "inf".toList
  | .finite negative m => withSign negative <|
    if m.mantissa = 0 then ['0']
    else
      let (digits, place) := m.shortest .up
      positional [] (Nat.toDigits 10 digits) place

end Double

end RuleLogic

import RuleLogic.Double

/-!
The shortest decimal that reads back as a given double. Grids of powers of ten are tried from coarse
to fine; the first that has a point rounding to the double gives the digits, and of two such points
the nearer one.
-/
namespace RuleLogic

inductive HalfWay where
  | even
  | up
deriving DecidableEq, Repr

namespace Magnitude

/-- The reals that round to a size, in quarters of its last place: from `low` to `high` around
`4 * mantissa`, the ends included if the mantissa is even. The gap below a power of two is half as
wide as the one above, save at the lowest exponent. -/
def low (m : Magnitude) : Nat :=
  if m.mantissa = 1 <<< 52 ∧ m.exponent ≠ 0 then 4 * m.mantissa - 1 else 4 * m.mantissa - 2

def high (m : Magnitude) : Nat := 4 * m.mantissa + 2

def reads (m : Magnitude) (num den : Nat) : Bool :=
  if m.mantissa % 2 = 0 then m.low * den ≤ num && num ≤ m.high * den
  else m.low * den < num && num < m.high * den

def onGrid? (ties : HalfWay) (m : Magnitude) (place : Int) : Option Nat :=
  -- a grid point `d` is `d * num / den` quarters of the last place
  let num := Nat.pow 10 place.toNat <<< 1076
  let den := Nat.pow 10 (-place).toNat <<< m.exponent
  let below := 4 * m.mantissa * den / num
  let above := below + 1
  match m.reads (below * num) den, m.reads (above * num) den with
  | false, false => none
  | true, false => some below
  | false, true => some above
  | true, true =>
    match compare (2 * (4 * m.mantissa * den)) ((below + above) * num), ties with
    | .lt, _ => some below
    | .gt, _ => some above
    | .eq, .up => some above
    | .eq, .even => some (if below % 2 = 0 then below else above)

def searchGrids (ties : HalfWay) (m : Magnitude) : Nat → Int → Nat × Int
  | 0, place => (0, place)
  | n + 1, place =>
    match m.onGrid? ties place with
    | some digits => (digits, place)
    | none => searchGrids ties m n (place - 1)

/-- Digits and power of ten of the shortest decimal for a nonzero size. The first grid is coarser
than the size itself, and seventeen digits always suffice. -/
def shortest (ties : HalfWay) (m : Magnitude) : Nat × Int :=
  let bits : Int := m.mantissa.log2 + m.exponent - 1073
  m.searchGrids ties 20 (bits * 30103 / 100000 + 1)

end Magnitude

end RuleLogic

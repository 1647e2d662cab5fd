/-!
Doubles as exact data. A finite double is a whole number of steps of `2 ^ -1074`, so order, equality
and truncation are integer questions. `NaN` equals and orders against nothing; the two zeros are
different data of equal rank.
-/
namespace RuleLogic

def int64? (n : Int) : Option Int64 :=
  if h : Int64.minValue.toInt ≤ n ∧ n ≤ Int64.maxValue.toInt then some (.ofIntLE n h.1 h.2)
  else none

/-- The size of a finite double: `mantissa * 2 ^ exponent` steps of `2 ^ -1074`. A mantissa is below
`2 ^ 52` only at the lowest exponent, so every size is written in one way. -/
structure Magnitude where
  mantissa : Nat
  exponent : Nat
  mantissa_lt : mantissa < 1 <<< 53
  exponent_le : exponent ≤ 2045
  canonical : exponent = 0 ∨ 1 <<< 52 ≤ mantissa
deriving DecidableEq, Repr

namespace Magnitude

def zero : Magnitude := ⟨0, 0, by decide, by decide, .inl rfl⟩

def greatest : Magnitude := ⟨1 <<< 53 - 1, 2045, by decide, by decide, .inr (by decide)⟩

def steps (m : Magnitude) : Nat := m.mantissa <<< m.exponent

def ofParts? (mantissa exponent : Nat) : Option Magnitude :=
  if h : mantissa < 1 <<< 53 ∧ exponent ≤ 2045 ∧ (exponent = 0 ∨ 1 <<< 52 ≤ mantissa) then
    some ⟨mantissa, exponent, h.1, h.2.1, h.2.2⟩
  else none

end Magnitude

inductive Double where
  | nan
  | infinite (negative : Bool)
  | finite (negative : Bool) (magnitude : Magnitude)
deriving DecidableEq, Repr

namespace Double

def zero : Double := .finite false .zero

instance : Inhabited Double := ⟨zero⟩

def isFinite : Double → Bool
  | .finite .. => true
  | _ => false

def signed (negative : Bool) (n : Nat) : Int := if negative then -n else n

/-- The place on the number line, in steps of `2 ^ -1074`, the infinities one place beyond the last
finite binade. `NaN` has none. -/
def rank? : Double → Option Int
  | .nan => none
  | .infinite negative => some (signed negative (1 <<< 2098))
  | .finite negative m => some (signed negative m.steps)

def same (x y : Double) : Bool :=
  match x.rank?, y.rank? with
  | some a, some b => a == b
  | _, _ => false

def compare? (x y : Double) : Option Ordering :=
  match x.rank?, y.rank? with
  | some a, some b => some (compare a b)
  | _, _ => none

theorem same_comm (x y : Double) : x.same y = y.same x := by
  unfold same
  split <;> split <;> simp_all [Bool.beq_comm]

theorem compare?_swap (x y : Double) : (x.compare? y).map Ordering.swap = y.compare? x := by
  unfold compare?
  cases x.rank? <;> cases y.rank? <;> try rfl
  exact congrArg some Std.OrientedCmp.eq_swap.symm

end Double

end RuleLogic

import RuleLogic.Expr
import Mathlib.Algebra.Order.Ring.Nat
import Mathlib.Tactic.Common

/-! Rounding stays among the finite doubles below the last binade, where every 64-bit number of a
document is. -/
namespace RuleLogic

theorem roundHalfEven_bounds (num den : Nat) :
    num / den ≤ roundHalfEven num den ∧ roundHalfEven num den ≤ num / den + 1 := by
  simp only [roundHalfEven]
  split <;> omega

namespace Magnitude

theorem isSome_ofParts? {mantissa exponent : Nat} (hm : mantissa < 2 ^ 53)
    (he : exponent ≤ 2045) (hc : exponent = 0 ∨ 2 ^ 52 ≤ mantissa) :
    (ofParts? mantissa exponent).isSome = true := by
  have h : mantissa < 1 <<< 53 ∧ exponent ≤ 2045 ∧ (exponent = 0 ∨ 1 <<< 52 ≤ mantissa) :=
    ⟨hm, he, hc⟩
  rw [ofParts?, dif_pos h, Option.isSome_some]

end Magnitude

namespace Double

/-! A quotient loses its places beyond the first 53. -/

theorem div_shift_lt (q : Nat) : q / 2 ^ (q.log2 - 52) < 2 ^ 53 := by
  rw [Nat.div_lt_iff_lt_mul (Nat.two_pow_pos _), ← Nat.pow_add]
  refine Nat.lt_of_lt_of_le Nat.lt_log2_self (Nat.pow_le_pow_right (by decide) ?_)
  omega

theorem le_div_shift {q : Nat} (h : 52 < q.log2) : 2 ^ 52 ≤ q / 2 ^ (q.log2 - 52) := by
  have hne : q ≠ 0 := by
    rintro rfl
    simp at h
  rw [Nat.le_div_iff_mul_le (Nat.two_pow_pos _), ← Nat.pow_add]
  refine Nat.le_trans (Nat.pow_le_pow_right (by decide) ?_) (Nat.log2_self_le hne)
  omega

theorem isFinite_ofRatio {negative : Bool} {num den bits : Nat} (hbits : bits ≤ 2097)
    (h : num <<< 1074 / den < 2 ^ bits) : (ofRatio negative num den).isFinite = true := by
  set q := num <<< 1074 / den with hq
  have hlog : q.log2 ≤ 2096 := by
    by_cases hne : q = 0
    · simp [hne]
    · have hlt := (Nat.log2_lt hne).2 h
      omega
  have hlt := div_shift_lt q
  have hge : 52 < q.log2 → 2 ^ 52 ≤ q / 2 ^ (q.log2 - 52) := le_div_shift
  have hdiv : num <<< 1074 / (den <<< (q.log2 - 52)) = q / 2 ^ (q.log2 - 52) := by
    rw [Nat.shiftLeft_eq den, ← Nat.div_div_eq_div_mul]
  obtain ⟨hle, hup⟩ := roundHalfEven_bounds (num <<< 1074) (den <<< (q.log2 - 52))
  rw [hdiv] at hle hup
  unfold ofRatio
  simp only [← hq]
  generalize roundHalfEven (num <<< 1074) (den <<< (q.log2 - 52)) = mantissa at hle hup ⊢
  have hsome : (if mantissa = 1 <<< 53 then Magnitude.ofParts? (1 <<< 52) (q.log2 - 52 + 1)
      else Magnitude.ofParts? mantissa (q.log2 - 52)).isSome = true := by
    split
    · exact Magnitude.isSome_ofParts? (by decide) (by omega) (.inr (by decide))
    · exact Magnitude.isSome_ofParts? (by omega) (by omega) (by omega)
  obtain ⟨m, hm⟩ := Option.isSome_iff_exists.1 hsome
  rw [hm]
  rfl

theorem shiftLeft_lt_two_pow {n bits : Nat} (h : n < 2 ^ bits) (places : Nat) :
    n <<< places < 2 ^ (bits + places) := by
  rw [Nat.shiftLeft_eq, Nat.pow_add]
  exact Nat.mul_lt_mul_of_pos_right h (Nat.two_pow_pos places)

theorem isFinite_ofInt {n : Int} {bits : Nat} (hbits : bits ≤ 1023) (h : n.natAbs < 2 ^ bits) :
    (ofInt n).isFinite = true := by
  have hsteps := shiftLeft_lt_two_pow h 1074
  rw [← Nat.div_one (n.natAbs <<< 1074)] at hsteps
  exact isFinite_ofRatio (by omega) hsteps

end Double

namespace Literal

theorem isFinite_of_ofNumber {n : Number} {x : Double} (h : ofNumber n = float x) :
    x.isFinite = true := by
  cases n with
  | integer n => contradiction
  | large n =>
    obtain rfl := float.inj h
    have hlt : (n.toNat : Int).natAbs < 2 ^ 64 := n.toNat_lt
    exact Double.isFinite_ofInt (by decide) hlt
  | double y finite =>
    obtain rfl := float.inj h
    exact finite

theorem toJson_float {x : Double} (h : x.isFinite = true) :
    toJson (float x) = .number (.double x h) := by
  simp [toJson, toValue, Value.toJson, Number.ofDouble?, h]

theorem exists_toJson_ofNumber (n : Number) : ∃ m, (ofNumber n).toJson = .number m := by
  cases n with
  | integer n => exact ⟨.integer n, rfl⟩
  | large n =>
    have hfinite : (Double.ofInt n.toNat).isFinite = true :=
      isFinite_of_ofNumber (rfl : ofNumber (.large n) = _)
    exact ⟨_, toJson_float hfinite⟩
  | double x finite => exact ⟨_, toJson_float finite⟩

end Literal

end RuleLogic

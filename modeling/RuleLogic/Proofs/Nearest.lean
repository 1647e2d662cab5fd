import RuleLogic.Proofs.Finite

/-! Whole numbers as doubles. The double nearest to a whole number keeps its first 53 binary places,
the 53rd rounded; cut back to a whole number it gives the number again exactly if that is a whole
number below `2 ^ 53` times a power of two. -/
namespace RuleLogic

theorem int64?_eq_some_iff {n : Int} {k : Int64} : int64? n = some k ↔ k.toInt = n := by
  unfold int64?
  constructor
  · intro h
    split at h
    · obtain rfl := Option.some.inj h
      exact Int64.toInt_ofIntLE
    · contradiction
  · rintro rfl
    have hrange : Int64.minValue.toInt ≤ k.toInt ∧ k.toInt ≤ Int64.maxValue.toInt :=
      ⟨k.minValue_le_toInt, k.toInt_le⟩
    rw [dif_pos hrange, Int64.ofIntLE_toInt]

theorem roundHalfEven_mul_right (num den : Nat) {c : Nat} (hc : 0 < c) :
    roundHalfEven (num * c) (den * c) = roundHalfEven num den := by
  have hdiv : num * c / (den * c) = num / den := Nat.mul_div_mul_right _ _ hc
  have hmod : num * c % (den * c) = num % den * c := Nat.mul_mod_mul_right _ _ _
  have hlt : den * c < 2 * (num % den * c) ↔ den < 2 * (num % den) := by
    rw [← Nat.mul_assoc]
    exact Nat.mul_lt_mul_right hc
  have heq : 2 * (num % den * c) = den * c ↔ 2 * (num % den) = den := by
    rw [← Nat.mul_assoc]
    exact Nat.mul_left_inj (Nat.ne_of_gt hc)
  simp only [roundHalfEven, hdiv, hmod, hlt, heq]

theorem roundHalfEven_mul_self (num : Nat) {den : Nat} (h : 0 < den) :
    roundHalfEven (num * den) den = num := by
  have hne : den ≠ 0 := Nat.ne_of_gt h
  simp [roundHalfEven, Nat.mul_div_cancel _ h, Ne.symm hne]

theorem Magnitude.steps_of_ofParts? {mantissa exponent : Nat} {m : Magnitude}
    (h : ofParts? mantissa exponent = some m) : m.steps = mantissa <<< exponent := by
  unfold ofParts? at h
  split at h
  · obtain rfl := Option.some.inj h
    rfl
  · contradiction

theorem log2_shiftLeft {n : Nat} (hn : n ≠ 0) (places : Nat) :
    (n <<< places).log2 = n.log2 + places := by
  have hpos := Nat.two_pow_pos places
  rw [Nat.shiftLeft_eq]
  apply (Nat.log2_eq_iff (Nat.mul_ne_zero hn (Nat.ne_of_gt hpos))).2
  constructor
  · rw [Nat.pow_add]
    exact Nat.mul_le_mul_right _ (Nat.log2_self_le hn)
  · rw [Nat.add_right_comm, Nat.pow_add]
    exact Nat.mul_lt_mul_of_pos_right Nat.lt_log2_self hpos

namespace Double

theorem steps_of_ofRatio {sign negative : Bool} {num den : Nat} {m : Magnitude}
    (h : ofRatio sign num den = .finite negative m) :
    negative = sign ∧ ∃ exponent, exponent = (num <<< 1074 / den).log2 - 52 ∧
      m.steps = roundHalfEven (num <<< 1074) (den <<< exponent) <<< exponent := by
  unfold ofRatio at h
  dsimp only at h
  generalize num <<< 1074 = steps at h ⊢
  generalize hexponent : (steps / den).log2 - 52 = exponent at h
  generalize hmantissa : roundHalfEven steps (den <<< exponent) = mantissa at h
  split at h
  · rename_i found hfound
    obtain ⟨rfl, rfl⟩ := Double.finite.inj h
    refine ⟨rfl, exponent, rfl, ?_⟩
    rw [hmantissa]
    split at hfound
    · -- rounded up to the next power of two, the size has one place less
      rename_i hcarry
      rw [Magnitude.steps_of_ofParts? hfound, hcarry, Nat.shiftLeft_succ_inside]
      rfl
    · exact Magnitude.steps_of_ofParts? hfound
  · contradiction

/-- A whole number rounded to 53 binary places, a half to the even one. -/
def nearestWhole (n : Nat) : Nat := roundHalfEven n (2 ^ (n.log2 - 52)) * 2 ^ (n.log2 - 52)

/-- A whole number that doubles have exactly. -/
def HasWhole (n : Nat) : Prop := ∃ m k : Nat, m < 2 ^ 53 ∧ n = m * 2 ^ k

theorem dvd_of_hasWhole {n : Nat} (h : HasWhole n) : 2 ^ (n.log2 - 52) ∣ n := by
  obtain ⟨m, k, hm, rfl⟩ := h
  by_cases hk : (m * 2 ^ k).log2 - 52 ≤ k
  · exact Nat.dvd_mul_left_of_dvd (Nat.pow_dvd_pow 2 hk) m
  · have hne : m * 2 ^ k ≠ 0 := by
      intro hzero
      simp [hzero] at hk
    have hlt : m * 2 ^ k < 2 ^ (53 + k) := by
      rw [← Nat.shiftLeft_eq]
      exact shiftLeft_lt_two_pow hm k
    have hlog := (Nat.log2_lt hne).2 hlt
    omega

theorem nearestWhole_eq_self_iff {n : Nat} : nearestWhole n = n ↔ HasWhole n := by
  constructor
  · intro h
    refine ⟨n / 2 ^ (n.log2 - 52), n.log2 - 52, div_shift_lt n, ?_⟩
    exact (Nat.div_mul_cancel (Dvd.intro_left _ h)).symm
  · intro h
    have hcancel := Nat.div_mul_cancel (dvd_of_hasWhole h)
    generalize hunit : 2 ^ (n.log2 - 52) = unit at hcancel
    have hpos : 0 < unit := by
      rw [← hunit]
      exact Nat.two_pow_pos _
    calc nearestWhole n
      _ = roundHalfEven (n / unit * unit) unit * unit := by rw [nearestWhole, hunit, hcancel]
      _ = n / unit * unit := by rw [roundHalfEven_mul_self _ hpos]
      _ = n := hcancel

theorem nearestWhole_of_lt {n : Nat} (h : n < 2 ^ 53) : nearestWhole n = n :=
  nearestWhole_eq_self_iff.2 ⟨n, 0, h, (Nat.mul_one n).symm⟩

theorem roundHalfEven_shiftLeft {n places exponent : Nat} (hn : n ≠ 0) (hplaces : 52 ≤ places)
    (he : exponent = (n <<< places).log2 - 52) :
    roundHalfEven (n <<< places) (1 <<< exponent) <<< exponent = nearestWhole n <<< places := by
  rw [log2_shiftLeft hn] at he
  simp only [Nat.shiftLeft_eq, Nat.one_mul]
  obtain hsmall | hlarge := Nat.lt_or_ge n.log2 52
  · have hwhole := nearestWhole_of_lt (n := n) ((Nat.log2_lt hn).1 (by omega))
    have hkept : n * 2 ^ places = n * 2 ^ (52 - n.log2) * 2 ^ exponent := by
      have hsum : places = 52 - n.log2 + exponent := by omega
      rw [Nat.mul_assoc, ← Nat.pow_add, ← hsum]
    rw [hkept, roundHalfEven_mul_self _ (Nat.two_pow_pos exponent), hwhole, ← hkept]
  · have hsum : exponent = n.log2 - 52 + places := by omega
    rw [hsum, Nat.pow_add, roundHalfEven_mul_right _ _ (Nat.two_pow_pos places), ← Nat.mul_assoc,
      nearestWhole]

theorem truncate?_ofInt {n bits : Nat} (hbits : bits ≤ 1023) (h : n < 2 ^ bits) :
    (ofInt n).truncate? = int64? (nearestWhole n) := by
  by_cases hn : n = 0
  · subst hn
    decide +kernel
  have hfinite := isFinite_ofInt (n := n) hbits h
  cases hx : ofInt n with
  | finite negative m =>
    obtain ⟨rfl, exponent, he, hsteps⟩ := steps_of_ofRatio hx
    rw [Int.natAbs_natCast, Nat.div_one] at he
    rw [Int.natAbs_natCast, roundHalfEven_shiftLeft hn (by decide) he] at hsteps
    have hpositive : ¬(n : Int) < 0 := by omega
    rw [truncate?, hsteps, Nat.shiftLeft_shiftRight]
    simp [signed, hpositive]
  | _ =>
    rw [hx] at hfinite
    exact absurd hfinite Bool.false_ne_true

theorem ofDecimal_whole (n : Nat) : ofDecimal false n 0 = ofInt n := by
  by_cases hn : n = 0
  · subst hn
    decide +kernel
  · have hrange : ¬(n.log2 : Int) + 1 ≤ -1080 := by omega
    have hpositive : ¬(n : Int) < 0 := by omega
    simp [ofDecimal, ofInt, hn, hrange, hpositive]

end Double

end RuleLogic

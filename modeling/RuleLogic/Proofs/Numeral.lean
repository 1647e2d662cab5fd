import RuleLogic.Proofs.Casting
import RuleLogic.Proofs.Nearest
import Mathlib.Data.List.TakeWhile

/-! Numbers in texts. The `Number` cast takes exactly the numerals without leading zeros that fit 64
bits, to their integers, and digits on both sides of one point, to the nearest double. The `Integer`
cast reads every number as a double first, and so agrees with it on the integers that doubles
have. -/
namespace RuleLogic

theorem trimBlank_of_forall {cs : List Char} (h : ∀ c ∈ cs, isBlank c = false) :
    trimBlank cs = cs := by
  have hdrop : ∀ ds : List Char, (∀ c ∈ ds, isBlank c = false) → ds.dropWhile isBlank = ds := by
    intro ds hds
    cases ds with
    | nil => rfl
    | cons c ds => exact List.dropWhile_cons_of_neg (by simp [hds c (List.mem_cons_self ..)])
  have hreverse : ∀ c ∈ cs.reverse, isBlank c = false := by simpa using h
  rw [trimBlank, hdrop cs h, hdrop cs.reverse hreverse, List.reverse_reverse]

namespace Decimal

variable {cs : List Char} {c : Char}

structure Digits (cs : List Char) : Prop where
  ne_nil : cs ≠ []
  isDigit : ∀ c ∈ cs, c.isDigit = true

/-- The text `0|[1-9][0-9]*`. -/
inductive Numeral : List Char → Prop
  | zero : Numeral ['0']
  | positive {c : Char} {cs : List Char} :
      '1' ≤ c → c ≤ '9' → (∀ d ∈ cs, d.isDigit = true) → Numeral (c :: cs)

/-- The text `[0-9]+\.[0-9]+` and the number that it denotes. -/
inductive PointNumeral : List Char → Decimal → Prop
  | mk {whole fraction : List Char} : Digits whole → Digits fraction →
      PointNumeral (whole ++ '.' :: fraction)
        ⟨false, natOfDigits (whole ++ fraction), -fraction.length⟩

theorem areDigits_iff : areDigits cs = true ↔ Digits cs := by
  simp only [areDigits, Bool.and_eq_true, Bool.not_eq_true', List.isEmpty_eq_false_iff,
    List.all_eq_true]
  exact ⟨fun h => ⟨h.1, h.2⟩, fun h => ⟨h.ne_nil, h.isDigit⟩⟩

theorem isDigit_iff : c.isDigit = true ↔ '0' ≤ c ∧ c ≤ '9' := by
  simp [Char.isDigit, Char.le_def]

theorem isDigit_and_ne_zero_iff : c.isDigit = true ∧ c ≠ '0' ↔ '1' ≤ c ∧ c ≤ '9' := by
  simp only [isDigit_iff, Char.le_def, UInt32.le_iff_toNat_le, ne_eq, ← Char.toNat_inj]
  simp only [Char.toNat, Char.reduceVal, UInt32.reduceToNat]
  omega

theorem numeral_iff :
    Numeral cs ↔ areDigits cs = true ∧ (cs = ['0'] ∨ cs.head? ≠ some '0') := by
  rw [areDigits_iff]
  constructor
  · rintro (_ | ⟨hlow, hhigh, hrest⟩)
    · exact ⟨⟨by simp, by simp⟩, .inl rfl⟩
    · obtain ⟨hdigit, hne⟩ := isDigit_and_ne_zero_iff.2 ⟨hlow, hhigh⟩
      refine ⟨⟨by simp, ?_⟩, .inr (by simpa using hne)⟩
      exact List.forall_mem_cons.2 ⟨hdigit, hrest⟩
  · rintro ⟨hdigits, rfl | hhead⟩
    · exact .zero
    · obtain ⟨c, cs, rfl⟩ := List.exists_cons_of_ne_nil hdigits.ne_nil
      obtain ⟨hc, hcs⟩ := List.forall_mem_cons.1 hdigits.isDigit
      have hne : c ≠ '0' := by simpa using hhead
      obtain ⟨hlow, hhigh⟩ := isDigit_and_ne_zero_iff.1 ⟨hc, hne⟩
      exact .positive hlow hhigh hcs

theorem Numeral.digits (h : Numeral cs) : Digits cs := areDigits_iff.1 (numeral_iff.1 h).1

theorem Digits.point_not_mem (h : Digits cs) : '.' ∉ cs := by
  intro hmem
  have hdigit := h.isDigit _ hmem
  contradiction

theorem isBlank_of_isDigit (h : c.isDigit = true) : isBlank c = false := by
  rw [isDigit_iff, Char.le_def, Char.le_def, UInt32.le_iff_toNat_le, UInt32.le_iff_toNat_le] at h
  simp only [Char.reduceVal, UInt32.reduceToNat] at h
  simp only [isBlank, Char.toNat]
  grind

/-! Reading digits. -/

theorem splitSign_of_head (h : c.isDigit = true) (cs : List Char) :
    splitSign (c :: cs) = (false, c :: cs) := by
  unfold splitSign
  split
  · rename_i heq
    obtain ⟨rfl, -⟩ := List.cons.inj heq
    contradiction
  · rename_i heq
    obtain ⟨rfl, -⟩ := List.cons.inj heq
    contradiction
  · rfl

theorem Digits.splitSign_append (h : Digits cs) (rest : List Char) :
    splitSign (cs ++ rest) = (false, cs ++ rest) := by
  obtain ⟨c, cs, rfl⟩ := List.exists_cons_of_ne_nil h.ne_nil
  exact splitSign_of_head (h.isDigit c (List.mem_cons_self ..)) _

theorem Digits.read? (h : Digits cs) : read? cs = some ⟨false, natOfDigits cs, 0⟩ := by
  have hsign := h.splitSign_append []
  have htake : cs.takeWhile Char.isDigit = cs := List.takeWhile_eq_self_iff.2 h.isDigit
  have hdrop : cs.dropWhile Char.isDigit = [] := List.dropWhile_eq_nil_iff.2 h.isDigit
  rw [List.append_nil] at hsign
  simp [Decimal.read?, hsign, htake, hdrop, splitFraction, readExponent?, h.ne_nil]

theorem PointNumeral.read? {d : Decimal} (h : PointNumeral cs d) : read? cs = some d := by
  obtain ⟨hwhole, hfraction⟩ := h
  rename_i whole fraction
  have hpoint : ¬Char.isDigit '.' = true := by decide
  have htake : (whole ++ '.' :: fraction).takeWhile Char.isDigit = whole := by
    rw [List.takeWhile_append_of_pos hwhole.isDigit, List.takeWhile_cons_of_neg hpoint,
      List.append_nil]
  have hdrop : (whole ++ '.' :: fraction).dropWhile Char.isDigit = '.' :: fraction := by
    rw [List.dropWhile_append_of_pos hwhole.isDigit, List.dropWhile_cons_of_neg hpoint]
  have hsplit : splitFraction ('.' :: fraction) = (fraction, []) := by
    rw [splitFraction, List.takeWhile_eq_self_iff.2 hfraction.isDigit,
      List.dropWhile_eq_nil_iff.2 hfraction.isDigit]
  simp [Decimal.read?, hwhole.splitSign_append, htake, hdrop, hsplit, readExponent?,
    hwhole.ne_nil]

/-! Writing whole numbers. -/

theorem head?_toDigits {n : Nat} (hn : n ≠ 0) : (Nat.toDigits 10 n).head? ≠ some '0' := by
  induction n using Nat.strongRecOn with
  | ind n ih =>
    obtain hlt | hge := Nat.lt_or_ge n 10
    · rw [Nat.toDigits_of_lt_base hlt]
      intro hzero
      have hchar : n.digitChar.toNat = '0'.toNat := congrArg Char.toNat (Option.some.inj hzero)
      rw [Nat.toNat_digitChar_of_lt_ten hlt] at hchar
      simp at hchar
      omega
    · have hdigits : Nat.toDigits 10 (n / 10) ≠ [] := Nat.toDigits_ne_nil
      obtain ⟨c, cs, hcs⟩ := List.exists_cons_of_ne_nil hdigits
      have hhead := ih (n / 10) (by omega) (by omega)
      rw [Nat.toDigits_of_base_le (by decide) hge, List.head?_append]
      simpa [hcs] using hhead

theorem numeral_toDigits (n : Nat) : Numeral (Nat.toDigits 10 n) := by
  apply numeral_iff.2
  refine ⟨areDigits_toDigits n, ?_⟩
  by_cases hn : n = 0
  · subst hn
    exact .inl (Nat.toDigits_zero 10)
  · exact .inr (head?_toDigits hn)

end Decimal

namespace Cast

open Decimal

variable {s : String} {x : Double} {n : Int64} {whole fraction : List Char} {d : Decimal}

theorem finite?_of_read? (hblank : ∀ c ∈ s.toList, isBlank c = false)
    (hread : Decimal.read? s.toList = some d) :
    finite? s = some x ↔ x.isFinite = true ∧ x = d.toDouble := by
  have hdouble : Double.read? s.toList = some d.toDouble := by
    rw [Double.read?, hread]
  rw [finite?, trimBlank_of_forall hblank, hdouble, Option.filter_eq_some_iff, Option.some_inj,
    and_comm]
  exact and_congr_right fun _ => eq_comm

theorem finite?_of_digits (h : Digits s.toList) :
    finite? s = some x ↔ x.isFinite = true ∧ x = toDouble ⟨false, natOfDigits s.toList, 0⟩ :=
  finite?_of_read? (fun c hc => isBlank_of_isDigit (h.isDigit c hc)) h.read?

theorem finite?_of_point (h : PointNumeral s.toList d) :
    finite? s = some x ↔ x.isFinite = true ∧ x = d.toDouble := by
  refine finite?_of_read? ?_ h.read?
  generalize s.toList = cs at h
  obtain ⟨hwhole, hfraction⟩ := h
  intro c hc
  rcases List.mem_append.1 hc with hc | hc
  · exact isBlank_of_isDigit (hwhole.isDigit c hc)
  · rcases List.mem_cons.1 hc with rfl | hc
    · decide
    · exact isBlank_of_isDigit (hfraction.isDigit c hc)

theorem numeral?_plain {w : Value} (h : '.' ∉ s.toList) :
    numeral? s = some w ↔
      Numeral s.toList ∧ (int64? (natOfDigits s.toList)).map .integer = some w := by
  have hne : ∀ c ∈ s.toList, (c != '.') = true := by
    intro c hc
    simpa using ne_of_mem_of_not_mem hc h
  unfold numeral?
  dsimp only
  rw [List.takeWhile_eq_self_iff.2 hne, List.dropWhile_eq_nil_iff.2 hne, numeral_iff]
  simp [int64OfDigits?, Option.ite_none_right_eq_some]

theorem numeral?_point {w : Value} (hs : s.toList = whole ++ '.' :: fraction)
    (h : '.' ∉ whole) :
    numeral? s = some w ↔
      Digits whole ∧ Digits fraction ∧ (finite? s).map .float = some w := by
  have hne : ∀ c ∈ whole, (c != '.') = true := by
    intro c hc
    simpa using ne_of_mem_of_not_mem hc h
  have htake : s.toList.takeWhile (· != '.') = whole := by
    rw [hs, List.takeWhile_append_of_pos hne]
    simp
  have hdrop : s.toList.dropWhile (· != '.') = '.' :: fraction := by
    rw [hs, List.dropWhile_append_of_pos hne]
    simp
  unfold numeral?
  dsimp only
  rw [htake, hdrop]
  simp [Option.ite_none_right_eq_some, areDigits_iff, and_assoc]

theorem numeral?_eq_integer_iff :
    numeral? s = some (.integer n) ↔
      Numeral s.toList ∧ n.toInt = natOfDigits s.toList := by
  by_cases h : '.' ∈ s.toList
  · obtain ⟨whole, fraction, hs, hwhole⟩ := List.eq_append_cons_of_mem h
    rw [numeral?_point hs hwhole]
    constructor
    · rintro ⟨-, -, hfloat⟩
      simp at hfloat
    · rintro ⟨hnumeral, -⟩
      exact absurd h hnumeral.digits.point_not_mem
  · rw [numeral?_plain h]
    simp [int64?_eq_some_iff]

theorem numeral?_eq_float_iff :
    numeral? s = some (.float x) ↔
      x.isFinite = true ∧ ∃ d, PointNumeral s.toList d ∧ x = d.toDouble := by
  constructor
  · intro h
    by_cases hpoint : '.' ∈ s.toList
    · obtain ⟨whole, fraction, hs, hnot⟩ := List.eq_append_cons_of_mem hpoint
      obtain ⟨hwhole, hfraction, hfloat⟩ := (numeral?_point hs hnot).1 h
      have hd : PointNumeral s.toList _ := hs ▸ PointNumeral.mk hwhole hfraction
      have hx : finite? s = some x := by simpa using hfloat
      obtain ⟨hfinite, rfl⟩ := (finite?_of_point hd).1 hx
      exact ⟨hfinite, _, hd, rfl⟩
    · obtain ⟨-, hinteger⟩ := (numeral?_plain hpoint).1 h
      simp at hinteger
  · rintro ⟨hfinite, d, hd, rfl⟩
    have hx := (finite?_of_point hd).2 ⟨hfinite, rfl⟩
    generalize hs : s.toList = cs at hd
    obtain ⟨hwhole, hfraction⟩ := hd
    apply (numeral?_point hs hwhole.point_not_mem).2
    refine ⟨hwhole, hfraction, ?_⟩
    rw [hx]
    rfl

theorem exists_toInt_eq {m : Nat} (h : m < 2 ^ 63) : ∃ n : Int64, n.toInt = m := by
  have hlow : Int64.minValue.toInt ≤ m := by
    have hmin : Int64.minValue.toInt < 0 := by decide
    omega
  have hhigh : (m : Int) ≤ Int64.maxValue.toInt := by
    have hmax : Int64.maxValue.toInt = 2 ^ 63 - 1 := by decide
    omega
  exact ⟨.ofIntLE m hlow hhigh, Int64.toInt_ofIntLE⟩

theorem numeral?_eq_none_iff :
    numeral? s = none ↔ (Numeral s.toList → 2 ^ 63 ≤ natOfDigits s.toList) ∧
      ∀ d, PointNumeral s.toList d → d.toDouble.isFinite = false := by
  constructor
  · intro h
    constructor
    · intro hnumeral
      by_contra hlt
      obtain ⟨n, hn⟩ := exists_toInt_eq (Nat.not_le.1 hlt)
      have hsome := numeral?_eq_integer_iff.2 ⟨hnumeral, hn⟩
      rw [h] at hsome
      contradiction
    · intro d hd
      by_contra hfinite
      have hsome := numeral?_eq_float_iff.2 ⟨by simpa using hfinite, d, hd, rfl⟩
      rw [h] at hsome
      contradiction
  · rintro ⟨hlarge, hinfinite⟩
    apply Option.eq_none_iff_forall_ne_some.2
    intro w hw
    cases admits_of_numeral? hw with
    | numberInteger n =>
      obtain ⟨hnumeral, hn⟩ := numeral?_eq_integer_iff.1 hw
      have hle := hlarge hnumeral
      have hlt := n.toInt_lt
      omega
    | numberFloat hfinite =>
      obtain ⟨-, d, hd, rfl⟩ := numeral?_eq_float_iff.1 hw
      rw [hinfinite d hd] at hfinite
      contradiction

end Cast

namespace Value

open Decimal

theorem cast_string_eq_ok_iff {s : String} {w : Value} {target : DataType} :
    (string s).cast target = .ok w ↔ Cast.to? target (string s) = some w :=
  cast_eq_ok_iff (v := string s) nofun

theorem cast_number_eq_integer_iff {s : String} {n : Int64} :
    (string s).cast .number = .ok (.integer n) ↔
      Numeral s.toList ∧ n.toInt = natOfDigits s.toList :=
  cast_string_eq_ok_iff.trans Cast.numeral?_eq_integer_iff

theorem cast_number_eq_error_iff {s : String} :
    (string s).cast .number = .error ⟨.string s, .number⟩ ↔ Cast.numeral? s = none := by
  rw [cast_of_ne_nil (v := string s) nofun, Cast.to?, Cast.toNumber?]
  cases Cast.numeral? s <;> simp

theorem text_integer {i : Int64} (h : 0 ≤ i) :
    (integer i).text = String.ofList (Nat.toDigits 10 i.toInt.natAbs) := by
  have hsign : ¬i < 0 := Int64.not_lt.2 h
  rw [text, ofInt64, if_neg hsign]

/-- The number cast of a text. Whole numbers are exact up to the greatest of 64 bits, and what is
neither such a number nor a finite one with a point is refused. So an integer that is not negative
is read back from its text. -/
theorem cast_number_text (s : String) :
    (∀ n, (string s).cast .number = .ok (.integer n) ↔
      Numeral s.toList ∧ n.toInt = natOfDigits s.toList) ∧
    (∀ x, (string s).cast .number = .ok (.float x) ↔
      x.isFinite = true ∧ ∃ d, PointNumeral s.toList d ∧ x = d.toDouble) ∧
    ((string s).cast .number = .error ⟨.string s, .number⟩ ↔
      (Numeral s.toList → 2 ^ 63 ≤ natOfDigits s.toList) ∧
        ∀ d, PointNumeral s.toList d → d.toDouble.isFinite = false) ∧
    ∀ i : Int64, 0 ≤ i → ∃ text, (integer i).cast .string = .ok (.string text) ∧
      (string text).cast .number = .ok (.integer i) := by
  refine ⟨fun n => cast_number_eq_integer_iff, fun x => ?_, ?_,
    fun i hi => ⟨(integer i).text, rfl, ?_⟩⟩
  · exact cast_string_eq_ok_iff.trans Cast.numeral?_eq_float_iff
  · exact cast_number_eq_error_iff.trans Cast.numeral?_eq_none_iff
  · apply cast_number_eq_integer_iff.2
    rw [text_integer hi, String.toList_ofList, natOfDigits_toDigits]
    have hnonneg : 0 ≤ i.toInt := Int64.le_iff_toInt_le.1 hi
    exact ⟨numeral_toDigits _, by omega⟩

theorem cast_number_text_greatest :
    (0 : Int64) ≤ Int64.maxValue ∧
      (∃ text, (integer Int64.maxValue).cast .string = .ok (.string text) ∧
        (string text).cast .number = .ok (.integer Int64.maxValue)) ∧
      (string "9223372036854775808").cast .number =
        .error ⟨.string "9223372036854775808", .number⟩ := by
  have hgreatest : (0 : Int64) ≤ Int64.maxValue := by decide
  obtain ⟨-, -, hrefused, hback⟩ := cast_number_text "9223372036854775808"
  refine ⟨hgreatest, hback _ hgreatest, hrefused.2 ⟨fun _ => by decide +kernel, ?_⟩⟩
  intro d hd
  have hpoint : '.' ∉ "9223372036854775808".toList := by decide
  generalize "9223372036854775808".toList = cs at hd hpoint
  obtain ⟨-, -⟩ := hd
  simp at hpoint

theorem toInteger?_numeral {s : String} {n : Int64} (h : Numeral s.toList)
    (hn : n.toInt = natOfDigits s.toList) :
    Cast.to? .integer (string s) = Cast.to? .integer (float (.ofInt n.toInt)) := by
  have hdouble : Double.ofInt n.toInt = toDouble ⟨false, natOfDigits s.toList, 0⟩ := by
    rw [hn, toDouble, Double.ofDecimal_whole]
  have hfinite := (Cast.finite?_of_digits h.digits).2 ⟨Cast.isFinite_ofInt64 n, hdouble⟩
  calc Cast.to? .integer (string s)
    _ = ((Cast.finite? s).bind (·.truncate?)).map .integer := rfl
    _ = (Double.ofInt n.toInt).truncate?.map .integer := by rw [hfinite, Option.bind_some]
    _ = Cast.to? .integer (float (.ofInt n.toInt)) := rfl

theorem toInteger?_ofInt64 {n k : Int64} {m : Nat} (hm : n.toInt = m) :
    Cast.to? .integer (float (.ofInt n.toInt)) = some (.integer k) ↔
      k.toInt = Double.nearestWhole m := by
  have hlt : m < 2 ^ 63 := by
    have hlimit := n.toInt_lt
    omega
  rw [Cast.to?, Cast.toInteger?, hm, Double.truncate?_ofInt (by decide) hlt]
  simp [int64?_eq_some_iff]

/-- A whole number in a text as an integer. The text is read as the nearest double first, and so the
integer is the number itself exactly if doubles have it. -/
theorem cast_integer_of_number {s : String} {n : Int64}
    (h : (string s).cast .number = .ok (.integer n)) :
    ((string s).cast .integer = .ok (.integer n) ↔
      ∃ m k : Nat, m < 2 ^ 53 ∧ n.toInt = m * 2 ^ k) ∧
    ∀ w, (string s).cast .integer = .ok w ↔
      (float (.ofInt n.toInt)).cast .integer = .ok w := by
  obtain ⟨hnumeral, hn⟩ := cast_number_eq_integer_iff.1 h
  have hcast := toInteger?_numeral hnumeral hn
  constructor
  · rw [cast_string_eq_ok_iff, hcast, toInteger?_ofInt64 hn, hn, Int.natCast_inj, eq_comm,
      Double.nearestWhole_eq_self_iff]
    simp only [Double.HasWhole]
    norm_cast
  · intro w
    rw [cast_string_eq_ok_iff, hcast, cast_eq_ok_iff (v := float _) nofun]

theorem cast_integer_of_number_even :
    (string "9007199254740994").cast .number = .ok (.integer 9007199254740994) ∧
      (string "9007199254740994").cast .integer = .ok (.integer 9007199254740994) := by
  have hnumber : (string "9007199254740994").cast .number = .ok (.integer 9007199254740994) := by
    apply cast_number_eq_integer_iff.2
    exact ⟨numeral_iff.2 (by decide), by decide +kernel⟩
  refine ⟨hnumber, (cast_integer_of_number hnumber).1.2 ?_⟩
  exact ⟨4503599627370497, 1, by decide, by decide⟩

theorem cast_integer_rounded :
    (string "9007199254740993").cast .number = .ok (.integer 9007199254740993) ∧
      (string "9007199254740993").cast .integer = .ok (.integer 9007199254740992) ∧
      (string "9007199254740993").cast .integer ≠ .ok (.integer 9007199254740993) := by
  have hnumeral : Numeral "9007199254740993".toList := numeral_iff.2 (by decide)
  have hn : (9007199254740993 : Int64).toInt = natOfDigits "9007199254740993".toList := by
    decide +kernel
  have hinteger : (string "9007199254740993").cast .integer = .ok (.integer 9007199254740992) := by
    apply cast_string_eq_ok_iff.2
    rw [toInteger?_numeral hnumeral hn]
    exact (toInteger?_ofInt64 (m := 9007199254740993) (by decide)).2 (by decide +kernel)
  refine ⟨cast_number_eq_integer_iff.2 ⟨hnumeral, hn⟩, hinteger, ?_⟩
  rw [hinteger]
  simp

end Value

end RuleLogic

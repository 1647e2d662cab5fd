import RuleLogic.Comparison

/-! How the comparisons of two values hang together. Equality, membership and overlap do not depend
on which value comes first, the orders turn around with it, and membership and overlap come down to
equality with the items of lists. A list is equal to nothing, not even as an item of a list. -/
namespace RuleLogic

theorem Double.same_eq_compare? (x y : Double) : x.same y = (x.compare? y == some .eq) := by
  unfold same compare?
  cases x.rank? with
  | none => rfl
  | some m =>
    cases y.rank? with
    | none => rfl
    | some n =>
      rw [Bool.eq_iff_iff]
      simp

namespace Value

theorem equals_comm (a b : Value) : a.equals b = b.equals a := by
  cases a <;> cases b
  case boolean.boolean x y => exact Bool.beq_comm
  case integer.integer m n => exact Bool.beq_comm
  case float.float x y => exact Double.same_comm x y
  case string.string s t => exact Bool.beq_comm
  all_goals rfl

theorem equals_list (items : List Value) (v : Value) : (list items).equals v = false := by
  cases v <;> rfl

theorem kind?_ne_list_of_equals {a b : Value} (h : a.equals b = true) : a.kind? ≠ some .list := by
  cases a
  case list items =>
    rw [equals_list] at h
    contradiction
  all_goals simp [kind?]

theorem compare?_swap (a b : Value) : (a.compare? b).map Ordering.swap = b.compare? a := by
  cases a <;> cases b
  case integer.integer m n => exact congrArg some Std.OrientedCmp.eq_swap.symm
  case float.float x y => exact Double.compare?_swap x y
  all_goals rfl

theorem compare?_beq_swap (a b : Value) (order : Ordering) :
    (a.compare? b == some order) = (b.compare? a == some order.swap) := by
  rw [← compare?_swap a b]
  rcases a.compare? b with _ | _ | _ | _ <;> cases order <;> rfl

theorem compare?_beq_eq_iff (a b : Value) :
    (a.compare? b == some .eq) = true ↔
      (a.kind? = some .integer ∧ b.kind? = some .integer ∨
        a.kind? = some .float ∧ b.kind? = some .float) ∧ a.equals b = true := by
  cases a <;> cases b
  case integer.integer m n =>
    have hequals : (integer m).equals (integer n) = (m == n) := rfl
    simp [compare?, hequals, kind?, Int64.toInt_inj]
  case float.float x y =>
    have hequals : (float x).equals (float y) = x.same y := rfl
    rw [hequals, Double.same_eq_compare?]
    simp [compare?, kind?]
  all_goals simp [compare?, kind?]

theorem membership?_comm (a b : Value) : a.membership? b = b.membership? a := by
  cases a <;> cases b <;> rfl

theorem membership?_list {a : Value} (h : a.kind? ≠ some .list) (items : List Value) :
    a.membership? (list items) = some (items.any (·.equals a)) := by
  cases a
  case list => contradiction
  all_goals rfl

theorem overlaps_lists_iff {xs ys : List Value} :
    (list xs).overlaps (list ys) = true ↔ ∃ x ∈ xs, ∃ y ∈ ys, x.equals y = true := by
  simp only [overlaps, List.any_eq_true]

theorem overlaps_comm (a b : Value) : a.overlaps b = b.overlaps a := by
  cases a <;> cases b
  case list.list xs ys =>
    rw [Bool.eq_iff_iff, overlaps_lists_iff, overlaps_lists_iff]
    constructor
    · rintro ⟨x, hx, y, hy, h⟩
      exact ⟨y, hy, x, hx, equals_comm x y ▸ h⟩
    · rintro ⟨y, hy, x, hx, h⟩
      exact ⟨x, hx, y, hy, equals_comm y x ▸ h⟩
  all_goals rfl

end Value

namespace ComparisonOp

/-- What the comparisons of two values promise of each other. -/
structure Coherent (holds : ComparisonOp → Value → Value → Bool) : Prop where
  unequal : ∀ a b, holds .unequal a b = !holds .equal a b
  notIn : ∀ a b, holds .notIn a b = !holds .isIn a b
  equal_comm : ∀ a b, holds .equal a b = holds .equal b a
  isIn_comm : ∀ a b, holds .isIn a b = holds .isIn b a
  overlap_comm : ∀ a b, holds .overlap a b = holds .overlap b a
  greater_swap : ∀ a b, holds .greater a b = holds .less b a
  atLeast_swap : ∀ a b, holds .atLeast a b = holds .atMost b a
  atLeast_iff : ∀ a b, holds .atLeast a b = true ↔
    holds .greater a b = true ∨
      (a.kind? = some .integer ∧ b.kind? = some .integer ∨
        a.kind? = some .float ∧ b.kind? = some .float) ∧ holds .equal a b = true
  isIn_list_iff : ∀ a items, a.kind? ≠ some .list →
    (holds .isIn a (.list items) = true ↔ ∃ x ∈ items, holds .equal a x = true)
  overlap_lists_iff : ∀ xs ys, holds .overlap (.list xs) (.list ys) = true ↔
    ∃ x ∈ xs, x.kind? ≠ some .list ∧ holds .isIn x (.list ys) = true

theorem holds_isIn_list_iff {a : Value} (h : a.kind? ≠ some .list) (items : List Value) :
    isIn.holds [a, .list items] = true ↔ ∃ x ∈ items, a.equals x = true := by
  have hmembership := Value.membership?_list h items
  simp only [holds, holdsOfTwo, hmembership, Option.getD_some, List.any_eq_true,
    Value.equals_comm a]

/-- The comparisons keep these promises for all values, and for lists of any depth. -/
theorem coherent : Coherent fun op a b => op.holds [a, b] where
  unequal _ _ := rfl
  notIn _ _ := rfl
  equal_comm := Value.equals_comm
  isIn_comm a b := by
    simp only [holds, holdsOfTwo, Value.membership?_comm a b]
  overlap_comm := Value.overlaps_comm
  greater_swap a b := Value.compare?_beq_swap a b .gt
  atLeast_swap a b := by
    simp only [holds, holdsOfTwo, Value.compare?_beq_swap a b]
    rfl
  atLeast_iff a b := by
    simp only [holds, holdsOfTwo, Bool.or_eq_true, Value.compare?_beq_eq_iff]
  isIn_list_iff _ items h := holds_isIn_list_iff h items
  overlap_lists_iff xs ys := by
    simp only [holds, holdsOfTwo, Value.overlaps_lists_iff]
    constructor
    · rintro ⟨x, hx, y, hy, h⟩
      have hscalar := Value.kind?_ne_list_of_equals h
      exact ⟨x, hx, hscalar, (holds_isIn_list_iff hscalar ys).2 ⟨y, hy, h⟩⟩
    · rintro ⟨x, hx, hscalar, h⟩
      obtain ⟨y, hy, h⟩ := (holds_isIn_list_iff hscalar ys).1 h
      exact ⟨x, hx, y, hy, h⟩

theorem coherent_zeros :
    equal.holds [.float .zero, .float (.finite true .zero)] = true ∧
      atLeast.holds [.float .zero, .float (.finite true .zero)] = true ∧
      greater.holds [.integer 2, .integer (-3)] = true ∧
      less.holds [.integer (-3), .integer 2] = true ∧
      isIn.holds [.string "a", .list [.list [.string "a"], .string "a"]] = true ∧
      notIn.holds [.string "a", .list [.list [.string "a"], .string "a"]] = false ∧
      isIn.holds [.string "a", .list [.list [.string "a"]]] = false ∧
      overlap.holds [.list [.nil, .string "a"], .list [.list [.string "a"], .string "a"]] =
        true := by
  have hequal : equal.holds [.float .zero, .float (.finite true .zero)] = true := by decide
  have hgreater : greater.holds [.integer 2, .integer (-3)] = true := by decide
  have hnot : isIn.holds [.string "a", .list [.list [.string "a"]]] = false := by decide
  have hin : isIn.holds [.string "a", .list [.list [.string "a"], .string "a"]] = true :=
    (coherent.isIn_list_iff (.string "a") _ nofun).2 ⟨.string "a", by simp, by decide⟩
  have hatLeast := (coherent.atLeast_iff (.float .zero) (.float (.finite true .zero))).2
    (.inr ⟨.inr ⟨rfl, rfl⟩, hequal⟩)
  have hless := coherent.greater_swap (.integer 2) (.integer (-3))
  have hnotIn := coherent.notIn (.string "a") (.list [.list [.string "a"], .string "a"])
  have hoverlap := (coherent.overlap_lists_iff [.nil, .string "a"]
    [.list [.string "a"], .string "a"]).2 ⟨.string "a", by simp, nofun, hin⟩
  rw [hin] at hnotIn
  exact ⟨hequal, hatLeast, hgreater, hless ▸ hgreater, hin, hnotIn, hnot, hoverlap⟩

end ComparisonOp

end RuleLogic

import RuleLogic.Proofs.Finite

/-! Where casts land. Each type admits values of its own kind, finite doubles only; a cast that
succeeds gives an admitted value, and an admitted value is what its own cast gives. So casting again
changes nothing, and no cast makes a double infinite. -/
namespace RuleLogic

/-- What a type takes values to. -/
inductive DataType.Admits : DataType → Value → Prop
  | numberInteger (n : Int64) : Admits .number (.integer n)
  | numberFloat {x : Double} : x.isFinite = true → Admits .number (.float x)
  | integer (n : Int64) : Admits .integer (.integer n)
  | float {x : Double} : x.isFinite = true → Admits .float (.float x)
  | string (s : String) : Admits .string (.string s)
  | boolean (b : Bool) : Admits .boolean (.boolean b)

/-- What no type takes. -/
inductive Value.Uncastable : Value → Prop
  | list (items : List Value) : Uncastable (.list items)
  | float {x : Double} : x.isFinite = false → Uncastable (.float x)

namespace Cast

theorem isFinite_of_finite? {s : String} {x : Double} (h : finite? s = some x) :
    x.isFinite = true :=
  (Option.filter_eq_some_iff.1 h).2

theorem isFinite_ofInt64 (n : Int64) : (Double.ofInt n.toInt).isFinite = true := by
  have hlow := n.le_toInt
  have hhigh := n.toInt_lt
  have hbits : n.toInt.natAbs < 2 ^ 64 := by omega
  exact Double.isFinite_ofInt (by decide) hbits

theorem admits_of_numeral? {s : String} {w : Value} (h : numeral? s = some w) :
    DataType.number.Admits w := by
  unfold numeral? at h
  dsimp only at h
  split at h <;> split at h
  · obtain ⟨n, -, rfl⟩ := Option.map_eq_some_iff.1 h
    exact .numberInteger n
  · contradiction
  · obtain ⟨x, hx, rfl⟩ := Option.map_eq_some_iff.1 h
    exact .numberFloat (isFinite_of_finite? hx)
  · contradiction

theorem admits_of_toNumber? {v w : Value} (h : toNumber? v = some w) :
    DataType.number.Admits w := by
  cases v with
  | integer n =>
    obtain rfl := Option.some.inj h
    exact .numberInteger n
  | float x =>
    obtain ⟨hx, hw⟩ := Option.ite_none_right_eq_some.1 h
    exact Option.some.inj hw ▸ .numberFloat hx
  | boolean b =>
    obtain rfl := Option.some.inj h
    exact .numberInteger _
  | string s => exact admits_of_numeral? h
  | _ => contradiction

theorem admits_of_toInteger? {v w : Value} (h : toInteger? v = some w) :
    DataType.integer.Admits w := by
  suffices hinteger : ∃ n, w = .integer n by
    obtain ⟨n, rfl⟩ := hinteger
    exact .integer n
  cases v with
  | integer n => exact ⟨n, (Option.some.inj h).symm⟩
  | float x =>
    obtain ⟨n, -, rfl⟩ := Option.map_eq_some_iff.1 h
    exact ⟨n, rfl⟩
  | boolean b => exact ⟨_, (Option.some.inj h).symm⟩
  | string s =>
    obtain ⟨n, -, rfl⟩ := Option.map_eq_some_iff.1 h
    exact ⟨n, rfl⟩
  | _ => contradiction

theorem admits_of_toFloat? {v w : Value} (h : toFloat? v = some w) : DataType.float.Admits w := by
  cases v with
  | integer n =>
    obtain rfl := Option.some.inj h
    exact .float (isFinite_ofInt64 n)
  | float x =>
    obtain ⟨hx, hw⟩ := Option.ite_none_right_eq_some.1 h
    exact Option.some.inj hw ▸ .float hx
  | boolean b =>
    obtain rfl := Option.some.inj h
    refine .float ?_
    cases b <;> decide +kernel
  | string s =>
    obtain ⟨x, hx, rfl⟩ := Option.map_eq_some_iff.1 h
    exact .float (isFinite_of_finite? hx)
  | _ => contradiction

theorem admits_of_toString? {v w : Value} (h : toString? v = some w) :
    DataType.string.Admits w := by
  have hstring : ∃ s, w = .string s := by
    unfold toString? at h
    grind
  obtain ⟨s, rfl⟩ := hstring
  exact .string s

theorem admits_of_toBoolean? {v w : Value} (h : toBoolean? v = some w) :
    DataType.boolean.Admits w := by
  have hboolean : ∃ b, w = .boolean b := by
    unfold toBoolean? at h
    grind
  obtain ⟨b, rfl⟩ := hboolean
  exact .boolean b

theorem admits_of_to? {target : DataType} {v w : Value} (htarget : target ≠ .undefined)
    (h : to? target v = some w) : target.Admits w := by
  cases target with
  | undefined => contradiction
  | number => exact admits_of_toNumber? h
  | integer => exact admits_of_toInteger? h
  | float => exact admits_of_toFloat? h
  | string => exact admits_of_toString? h
  | boolean => exact admits_of_toBoolean? h

theorem to?_of_admits {target : DataType} {w : Value} (h : target.Admits w) :
    to? target w = some w := by
  cases h with
  | numberFloat hx => exact if_pos hx
  | float hx => exact if_pos hx
  | _ => rfl

theorem to?_eq_none_of_uncastable {target : DataType} {v : Value} (htarget : target ≠ .undefined)
    (h : v.Uncastable) : to? target v = none := by
  cases h with
  | list items =>
    cases target with
    | undefined => contradiction
    | _ => rfl
  | @float x hx =>
    cases target with
    | undefined => contradiction
    | number => simp [to?, toNumber?, hx]
    | integer =>
      cases x with
      | finite negative m => contradiction
      | _ => rfl
    | float => simp [to?, toFloat?, hx]
    | string => simp [to?, toString?, hx]
    | boolean => rfl

end Cast

namespace Value

variable {v w : Value} {target : DataType}

theorem cast_of_ne_nil (hv : v ≠ .nil) (target : DataType) :
    v.cast target = match Cast.to? target v with
      | some w => .ok w
      | none => .error ⟨v, target⟩ := by
  cases v with
  | nil => contradiction
  | _ => rfl

theorem cast_eq_ok_iff (hv : v ≠ .nil) : v.cast target = .ok w ↔ Cast.to? target v = some w := by
  rw [cast_of_ne_nil hv]
  cases Cast.to? target v <;> simp

theorem cast_undefined (v : Value) : v.cast .undefined = .ok v := by
  cases v <;> rfl

theorem admits_of_cast (hv : v ≠ .nil) (htarget : target ≠ .undefined)
    (h : v.cast target = .ok w) : target.Admits w :=
  Cast.admits_of_to? htarget ((cast_eq_ok_iff hv).1 h)

theorem cast_of_admits (h : target.Admits w) : w.cast target = .ok w := by
  have hw : w ≠ .nil := by
    rintro rfl
    cases h
  exact (cast_eq_ok_iff hw).2 (Cast.to?_of_admits h)

theorem cast_of_uncastable (htarget : target ≠ .undefined) (h : v.Uncastable) :
    v.cast target = .error ⟨v, target⟩ := by
  have hv : v ≠ .nil := by
    rintro rfl
    cases h
  rw [cast_of_ne_nil hv, Cast.to?_eq_none_of_uncastable htarget h]

theorem cast_eq_self_iff :
    v.cast target = .ok v ↔ v = .nil ∨ target = .undefined ∨ target.Admits v := by
  constructor
  · intro h
    by_cases hv : v = .nil
    · exact .inl hv
    · by_cases htarget : target = .undefined
      · exact .inr (.inl htarget)
      · exact .inr (.inr (admits_of_cast hv htarget h))
  · rintro (rfl | rfl | h)
    · rfl
    · exact cast_undefined v
    · exact cast_of_admits h

/-- Nothing is cast twice: what a cast gives, the same cast leaves alone. It is of the type's own
kind, and finite; lists and doubles that are not finite are refused. -/
theorem cast_lands (v : Value) (target : DataType) :
    (∀ w, v.cast target = .ok w →
      w.cast target = .ok w ∧ (v ≠ .nil → target ≠ .undefined → target.Admits w)) ∧
    (target ≠ .undefined → v.Uncastable → v.cast target = .error ⟨v, target⟩) ∧
    (v.cast target = .ok v ↔ v = .nil ∨ target = .undefined ∨ target.Admits v) := by
  refine ⟨fun w h => ?_, cast_of_uncastable, cast_eq_self_iff⟩
  have hlands : v ≠ .nil → target ≠ .undefined → target.Admits w :=
    fun hv htarget => admits_of_cast hv htarget h
  refine ⟨?_, hlands⟩
  by_cases hv : v = .nil
  · subst hv
    obtain rfl := Except.ok.inj h
    exact h
  · by_cases htarget : target = .undefined
    · rw [htarget]
      exact cast_undefined w
    · exact cast_of_admits (hlands hv htarget)

theorem cast_lands_fraction :
    (string " 12.9 ").cast .integer = .ok (integer 12) ∧
      (integer 12).cast .integer = .ok (integer 12) ∧ DataType.integer.Admits (integer 12) ∧
      (float .nan).cast .string = .error ⟨float .nan, .string⟩ := by
  have hread : (Cast.finite? " 12.9 ").bind (·.truncate?) = some 12 := by decide +kernel
  have hto : Cast.to? .integer (string " 12.9 ") = some (integer 12) := by
    rw [Cast.to?, Cast.toInteger?, hread, Option.map_some]
  have htext : (string " 12.9 ").cast .integer = .ok (integer 12) :=
    (cast_eq_ok_iff (by simp)).2 hto
  obtain ⟨hagain, hadmits⟩ := (cast_lands (string " 12.9 ") .integer).1 (integer 12) htext
  have hnan := (cast_lands (float .nan) .string).2.1 nofun (.float rfl)
  exact ⟨htext, hagain, hadmits nofun nofun, hnan⟩

end Value

end RuleLogic

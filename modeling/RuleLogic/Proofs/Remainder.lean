import RuleLogic.Proofs.Extension
import RuleLogic.Proofs.Levels
import RuleLogic.Proofs.Refinement

/-! What is left of a connective, evaluated later. A value that is no truth value is reported by the
connective around it; `Alone` says when none is left around an operand, and then it is not. -/
namespace RuleLogic

variable {limit level : Nat} {c d : Context}

namespace Operand

theorem mem_knowns_iff {operands : List Operand} {b : Bool} :
    b ∈ knowns operands ↔ known b ∈ operands := by
  simp only [knowns, List.mem_filterMap]
  constructor
  · rintro ⟨x, hx, hb⟩
    cases x with
    | known b' => exact Option.some.inj hb ▸ hx
    | unknown e => contradiction
  · exact fun h => ⟨_, h, rfl⟩

theorem unknowns_eq_singleton_iff {operands : List Operand} {r : Expr} :
    unknowns operands = [r] ↔
      ∃ before after, operands = before ++ unknown r :: after ∧
        ∀ x ∈ before ++ after, ∃ b, x = known b := by
  have hknown : ∀ x : Operand, x.unknown? = none ↔ ∃ b, x = known b := by
    intro x
    cases x <;> simp [unknown?]
  have hunknown : ∀ x : Operand, x.unknown? = some r ↔ x = unknown r := by
    intro x
    cases x <;> simp [unknown?]
  simp only [unknowns, List.filterMap_eq_cons_iff, List.filterMap_eq_nil_iff, hknown, hunknown]
  constructor
  · rintro ⟨before, _, after, rfl, hbefore, rfl, hafter⟩
    exact ⟨before, after, rfl, List.forall_mem_append.2 ⟨hbefore, hafter⟩⟩
  · rintro ⟨before, after, rfl, h⟩
    obtain ⟨hbefore, hafter⟩ := List.forall_mem_append.1 h
    exact ⟨before, _, after, rfl, hbefore, rfl, hafter⟩

end Operand

namespace Expr

open Operand

def isConnective : Expr → Bool
  | logical _ _ _ => true
  | _ => false

/-- An operand stands alone for the whole expression: it is no connective and settled to no truth
value, and the operands beside it and beside every connective around it are known and count for
nothing. -/
inductive Alone (limit : Nat) (data : Context) : Nat → Expr → Expr → Prop
  | itself {level : Nat} {e : Expr} :
      e.isConnective = false →
      (∀ b, e.simplifyAt limit data level ≠ .value (.boolean b)) →
      Alone limit data level e e
  | operand {level : Nat} {op : LogicalOp} {before after : List Expr} {e x : Expr} {o : Options}
      {b : Bool} :
      level < limit → op.neutral? = some b →
      (∀ other ∈ before ++ after,
        other.simplifyAt limit data (level + 1) = .value (.boolean b)) →
      Alone limit data (level + 1) e x →
      Alone limit data level (logical op (before ++ e :: after) o) x

theorem operandAt_eq_known_iff {e : Expr} {b : Bool} :
    e.operandAt limit c level = known b ↔ e.simplifyAt limit c level = .value (.boolean b) := by
  rw [operandAt]
  cases e.simplifyAt limit c level with
  | rest r => simp [Simplified.operand]
  | value v => cases v <;> simp [Simplified.operand]

theorem eq_of_operandAt {e r : Expr} (he : e.isConnective = false)
    (h : e.operandAt limit c level = unknown r) : r = e := by
  rcases eq_or_rest_of_operandAt h with rfl | hs
  · rfl
  · rcases eq_or_logical_of_simplifyAt hs with hr | ⟨_, _, _, rfl⟩
    · exact hr
    · contradiction

theorem operandAt_logical {op : LogicalOp} {es : List Expr} {o : Options} {r : Expr} :
    (logical op es o).operandAt limit c level = unknown r ↔
      (logical op es o).simplifyAt limit c level = .rest r := by
  rw [operandAt]
  cases hs : (logical op es o).simplifyAt limit c level with
  | rest r' => simp [Simplified.operand]
  | value v =>
    obtain ⟨b, rfl⟩ := boolean?_of_simplifyAt_logical hs
    simp [Simplified.operand]

theorem leftOver_eq_rest_iff {o : Options} {op : LogicalOp} {seenTrue : Bool} {es : List Expr}
    {r : Expr} (hr : r.isConnective = false) :
    leftOver o op seenTrue es = .rest r ↔ op.negates seenTrue = false ∧ es = [r] := by
  have hne : ∀ op' es', logical op' es' o ≠ r := by
    rintro _ _ rfl
    contradiction
  match es with
  | [] => simp [leftOver]
  | [e] => cases hn : op.negates seenTrue <;> simp [leftOver, hn, negate, hne]
  | e :: e' :: rest => simp [leftOver, hne]

theorem conclude_eq_rest_iff {o : Options} {op : LogicalOp} {operands : List Operand} {r : Expr}
    (hr : r.isConnective = false) :
    conclude o op false operands = .rest r ↔
      ∃ b before after, op.neutral? = some b ∧ operands = before ++ unknown r :: after ∧
        ∀ x ∈ before ++ after, x = known b := by
  have hrest : conclude o op false operands = .rest r ↔
      (∃ b, op.neutral? = some b ∧ ∀ t ∈ knowns operands, t = b) ∧ unknowns operands = [r] := by
    rw [← LogicalOp.keeps_last_iff, conclude]
    cases op.settled? false (knowns operands) with
    | some result => simp
    | none => simp [leftOver_eq_rest_iff hr]
  rw [hrest, unknowns_eq_singleton_iff]
  constructor
  · rintro ⟨⟨b, hb, hknowns⟩, before, after, rfl, hothers⟩
    refine ⟨b, before, after, hb, rfl, fun x hx => ?_⟩
    obtain ⟨t, rfl⟩ := hothers x hx
    have hmem : known t ∈ before ++ unknown r :: after := by
      rw [List.mem_append] at hx ⊢
      exact hx.imp_right (List.mem_cons_of_mem _)
    rw [hknowns t (mem_knowns_iff.2 hmem)]
  · rintro ⟨b, before, after, hb, rfl, hothers⟩
    refine ⟨⟨b, hb, fun t ht => ?_⟩, before, after, rfl, fun x hx => ⟨b, hothers x hx⟩⟩
    have hmem : known t ∈ before ++ after := by simpa using mem_knowns_iff.1 ht
    exact known.inj (hothers _ hmem)

theorem isConnective_of_alone {e x : Expr} (h : Alone limit c level e x) :
    x.isConnective = false := by
  induction h with
  | itself he _ => exact he
  | operand _ _ _ _ ih => exact ih

theorem operandAt_of_alone {e x : Expr} (h : Alone limit c level e x) :
    e.operandAt limit c level = unknown x := by
  induction h with
  | @itself level e he hb =>
    cases ho : e.operandAt limit c level with
    | known b => exact absurd (operandAt_eq_known_iff.1 ho) (hb b)
    | unknown r => rw [eq_of_operandAt he ho]
  | @operand level op before after e x o b hl hb hothers hx ih =>
    rw [operandAt_logical, simplifyAt_logical hl, conclude_eq_rest_iff (isConnective_of_alone hx)]
    refine ⟨b, before.map (operandAt limit c (level + 1)),
      after.map (operandAt limit c (level + 1)), hb, by rw [List.map_append, List.map_cons, ih], ?_⟩
    rw [← List.map_append, List.forall_mem_map]
    exact fun other hother => operandAt_eq_known_iff.2 (hothers other hother)

theorem alone_of_operandAt {e x : Expr} (hx : x.isConnective = false)
    (h : e.operandAt limit c level = unknown x) : Alone limit c level e x := by
  induction e generalizing level with
  | logical op es o ih =>
    rw [operandAt_logical] at h
    by_cases hl : level < limit
    · rw [simplifyAt_logical hl, conclude_eq_rest_iff hx] at h
      obtain ⟨b, _, _, hb, hes, hothers⟩ := h
      obtain ⟨before, _, rfl, rfl, htail⟩ := List.map_eq_append_iff.1 hes
      obtain ⟨e, after, rfl, he, rfl⟩ := List.map_eq_cons_iff.1 htail
      rw [← List.map_append, List.forall_mem_map] at hothers
      refine .operand hl hb (fun other hother => ?_) (ih e (by simp) he)
      exact operandAt_eq_known_iff.1 (hothers other hother)
    · rw [simplifyAt, if_pos (Nat.not_lt.1 hl)] at h
      rw [← Simplified.rest.inj h] at hx
      contradiction
  | _ =>
    obtain rfl := eq_of_operandAt rfl h
    refine .itself rfl fun b hb => ?_
    rw [operandAt_eq_known_iff.2 hb] at h
    contradiction

theorem exists_boolean_of_evaluateAt {e : Expr} {w : Value} (he : e.isConnective = true)
    (h : e.evaluateAt limit d level = .ok w) : ∃ b, w = .boolean b := by
  cases e with
  | logical op es o =>
    rw [evaluateAt_logical (lt_of_evaluateAt h)] at h
    obtain ⟨b, _, rfl⟩ := map_eq_ok_iff.1 h
    exact ⟨b, rfl⟩
  | _ => contradiction

/-- What is left of a connective has truth values only, unless it is an operand that stands alone
and has another value: nothing around that operand is left to report it. -/
theorem evaluate_rest_boolean_iff (limit : Nat) (c d : Context) (op : LogicalOp) (es : List Expr)
    (o : Options) {r : Expr} (h : (logical op es o).simplify limit c = .rest r) :
    (∀ w, r.evaluate limit d = .ok w → ∃ b, w = .boolean b) ↔
      ∀ x, Alone limit c 0 (logical op es o) x →
        ∀ w, x.evaluate limit d = .ok w → ∃ b, w = .boolean b := by
  have hrest : (logical op es o).operandAt limit c 0 = unknown r := operandAt_logical.2 h
  constructor
  · intro hr x hx
    have hsame := operandAt_of_alone hx
    rw [hrest] at hsame
    exact unknown.inj hsame ▸ hr
  · intro halone
    cases hr : r.isConnective with
    | true => exact fun w hw => exists_boolean_of_evaluateAt hr hw
    | false => exact halone r (alone_of_operandAt hr hrest)

def equalsFive : Expr := comparison .equal [lookup "n", literal (.integer 5)] .default

/-- The operands of `["AND", true, ["OR", false, ["==", "$n", 5]]]`. -/
def nestedFive : List Expr :=
  [literal (.boolean true), logical .or [literal (.boolean false), equalsFive] .default]

theorem evaluate_rest_nestedFive :
    (logical .and nestedFive .default).simplify 4 .empty = .rest equalsFive ∧
      ∀ w, equalsFive.evaluate 4 (Context.empty.insert "n" (.integer 5)) = .ok w →
        ∃ b, w = .boolean b := by
  refine ⟨rfl, (evaluate_rest_boolean_iff 4 .empty _ .and nestedFive .default rfl).2 ?_⟩
  intro x hx w hw
  obtain rfl : equalsFive = x := unknown.inj (operandAt_of_alone hx)
  exact ⟨true, (Except.ok.inj hw).symm⟩

def trueAndFive : Expr :=
  logical .and [literal (.boolean true), literal (.integer 5)] .default

theorem evaluate_rest_trueAndFive :
    Context.empty.Extends .empty ∧
      trueAndFive.simplify 128 .empty = .rest (literal (.integer 5)) ∧
      (literal (.integer 5)).evaluate 128 .empty = .ok (.integer 5) ∧
      ¬∃ b, Value.integer 5 = .boolean b :=
  ⟨Context.Extends.refl _, rfl, rfl, nofun⟩

end Expr

end RuleLogic

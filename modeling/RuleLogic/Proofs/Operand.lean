import RuleLogic.Simplification
import RuleLogic.Proofs.Connective

/-! Simplifying a connective goes through its operands once and keeps two things of them: the truth
values that are known and the expressions that are not. `simplifyLogical_eq` and
`simplifyAt_logical` state the result by these two alone. -/
namespace RuleLogic

inductive Operand where
  | known (b : Bool)
  | unknown (e : Expr)

namespace Operand

def known? : Operand → Option Bool
  | known b => some b
  | unknown _ => none

def unknown? : Operand → Option Expr
  | known _ => none
  | unknown e => some e

def knowns (operands : List Operand) : List Bool := operands.filterMap known?

def unknowns (operands : List Operand) : List Expr := operands.filterMap unknown?

@[simp] theorem knowns_nil : knowns [] = [] := rfl

@[simp] theorem unknowns_nil : unknowns [] = [] := rfl

@[simp] theorem knowns_known (b : Bool) (rest : List Operand) :
    knowns (known b :: rest) = b :: knowns rest := rfl

@[simp] theorem knowns_unknown (e : Expr) (rest : List Operand) :
    knowns (unknown e :: rest) = knowns rest := rfl

@[simp] theorem unknowns_known (b : Bool) (rest : List Operand) :
    unknowns (known b :: rest) = unknowns rest := rfl

@[simp] theorem unknowns_unknown (e : Expr) (rest : List Operand) :
    unknowns (unknown e :: rest) = e :: unknowns rest := rfl

end Operand

open Operand

/-- An operand `e` that comes to `s`. One that is settled to no truth value stays as it was. -/
def Simplified.operand (e : Expr) : Simplified → Operand
  | value (.boolean b) => known b
  | value _ => unknown e
  | rest r => unknown r

theorem Simplified.operand_value {v : Value} (h : v.boolean? = none) (e : Expr) :
    (value v).operand e = unknown e := by
  cases v <;> first | rfl | cases h

namespace Expr

variable {limit limit' level level' : Nat} {data data' : Context}

theorem simplifyAt_literal (h : level < limit) (l : Literal) :
    (literal l).simplifyAt limit data level = .value l.toValue := by
  rw [simplifyAt, if_neg (Nat.not_le.2 h)]

theorem simplifyAt_reference (h : level < limit) (r : Reference) :
    (reference r).simplifyAt limit data level =
      match r.settle? data with
      | some v => .value v
      | none => .rest (reference r) := by
  cases hs : r.settle? data <;> simp only [simplifyAt, if_neg (Nat.not_le.2 h), hs]

theorem simplifyAt_collection (h : level < limit) (items : List Expr) (o : Options) :
    (collection items o).simplifyAt limit data level =
      match settleEach limit data (level + 1) items with
      | some values => .value (.list values)
      | none => .rest (collection items o) := by
  cases hs : settleEach limit data (level + 1) items <;>
    simp only [simplifyAt, if_neg (Nat.not_le.2 h), hs]

theorem simplifyAt_comparison (h : level < limit) (op : ComparisonOp) (es : List Expr)
    (o : Options) :
    (comparison op es o).simplifyAt limit data level =
      match settleEach limit data (level + 1) es with
      | some values => .value (.boolean (op.holds values))
      | none => .rest (comparison op es o) := by
  cases hs : settleEach limit data (level + 1) es <;>
    simp only [simplifyAt, if_neg (Nat.not_le.2 h), hs]

theorem settleEach_cons_eq_some_iff {e : Expr} {rest : List Expr} {vs : List Value} :
    settleEach limit data level (e :: rest) = some vs ↔
      ∃ v ws, e.simplifyAt limit data level = .value v ∧
        settleEach limit data level rest = some ws ∧ v :: ws = vs := by
  rw [settleEach]
  cases e.simplifyAt limit data level <;> simp

def operandAt (limit : Nat) (data : Context) (level : Nat) (e : Expr) : Operand :=
  (e.simplifyAt limit data level).operand e

def conclude (o : Options) (op : LogicalOp) (seenTrue : Bool) (operands : List Operand) :
    Simplified :=
  match op.settled? seenTrue (knowns operands) with
  | some result => .value (.boolean result)
  | none => leftOver o op (seenTrue || (knowns operands).or) (unknowns operands)

theorem simplifyLogical_cons (o : Options) (op : LogicalOp) (seenTrue : Bool) (kept : List Expr)
    (e : Expr) (rest : List Expr) :
    simplifyLogical limit data o op seenTrue kept level (e :: rest) =
      match operandAt limit data level e with
      | known b =>
        match op.decides? seenTrue b with
        | some result => .value (.boolean result)
        | none => simplifyLogical limit data o op (seenTrue || b) kept level rest
      | unknown r => simplifyLogical limit data o op seenTrue (r :: kept) level rest := by
  rw [simplifyLogical, operandAt]
  cases e.simplifyAt limit data level with
  | rest r => rfl
  | value v => cases v <;> rfl

theorem simplifyLogical_eq (o : Options) (op : LogicalOp) (seenTrue : Bool) (kept es : List Expr) :
    simplifyLogical limit data o op seenTrue kept level es =
      let operands := es.map (operandAt limit data level)
      match op.settled? seenTrue (knowns operands) with
      | some result => .value (.boolean result)
      | none =>
        leftOver o op (seenTrue || (knowns operands).or) (kept.reverse ++ unknowns operands) := by
  induction es generalizing seenTrue kept with
  | nil => simp [simplifyLogical, LogicalOp.settled?]
  | cons e rest ih =>
    rw [simplifyLogical_cons]
    cases he : operandAt limit data level e with
    | unknown r => simp [ih, he]
    | known b =>
      cases hd : op.decides? seenTrue b with
      | some result => simp [he, LogicalOp.settled?, hd]
      | none => simp [ih, he, LogicalOp.settled?, hd, Bool.or_assoc]

theorem simplifyAt_logical (h : level < limit) (op : LogicalOp) (es : List Expr) (o : Options) :
    simplifyAt limit data level (logical op es o) =
      conclude o op false (es.map (operandAt limit data (level + 1))) := by
  rw [simplifyAt, if_neg (Nat.not_le.2 h), simplifyLogical_eq]
  rfl

theorem boolean?_of_simplifyAt_logical {op : LogicalOp} {es : List Expr} {o : Options} {v : Value}
    (h : simplifyAt limit data level (logical op es o) = .value v) : ∃ b, v = .boolean b := by
  by_cases hl : level < limit
  · rw [simplifyAt_logical hl, conclude] at h
    split at h
    · exact ⟨_, (Simplified.value.inj h).symm⟩
    · unfold leftOver at h
      split at h
      · exact ⟨_, (Simplified.value.inj h).symm⟩
      all_goals contradiction
  · rw [simplifyAt, if_pos (Nat.not_lt.1 hl)] at h
    contradiction

theorem eq_or_logical_of_simplifyAt {e r : Expr} (h : simplifyAt limit data level e = .rest r) :
    r = e ∨ ∃ op es o, e = logical op es o := by
  cases e with
  | logical op es o => exact .inr ⟨op, es, o, rfl⟩
  | literal l => unfold simplifyAt at h; grind
  | reference r => unfold simplifyAt at h; grind
  | collection items o => unfold simplifyAt at h; grind
  | comparison op es o => unfold simplifyAt at h; grind

end Expr

end RuleLogic

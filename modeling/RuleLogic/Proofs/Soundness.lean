import RuleLogic.Proofs.Extension
import RuleLogic.Proofs.Operand
import RuleLogic.Proofs.Refinement

/-! Simplifying agrees with evaluating in every completion of the context. The operands of a
connective that are already known are put in front, where `evaluateAfter` starts from them; what is
left then has the value that the whole connective has. -/
namespace RuleLogic

variable {limit level : Nat} {c d : Context}

/-- A value is the one that an expression has; a remainder has it on the same level. -/
def Simplified.Admits (limit : Nat) (data : Context) (level : Nat) (w : Value) :
    Simplified → Prop
  | value v => v = w
  | rest r => r.evaluateAt limit data level = .ok w

namespace Expr

open Operand

def evaluateAfter (limit : Nat) (data : Context) (op : LogicalOp) (seenTrue : Bool)
    (knowns : List Bool) (level : Nat) (es : List Expr) : Except EvalFault Bool :=
  match op.settled? seenTrue knowns with
  | some result => .ok result
  | none => evaluateLogical limit data op (seenTrue || knowns.or) level es

theorem evaluateAfter_cons (op : LogicalOp) (seenTrue b : Bool) (bs : List Bool) (es : List Expr) :
    evaluateAfter limit d op seenTrue (b :: bs) level es =
      match op.decides? seenTrue b with
      | some result => .ok result
      | none => evaluateAfter limit d op (seenTrue || b) bs level es := by
  unfold evaluateAfter
  rw [LogicalOp.settled?]
  cases op.decides? seenTrue b with
  | some result => rfl
  | none => simp only [List.or_cons, Bool.or_assoc]

/-- An operand with a truth value may be read before all others: the known ones are settled in any
order. -/
theorem evaluateAfter_operand {e : Expr} {b : Bool}
    (h : e.evaluateAt limit d level = .ok (.boolean b)) (op : LogicalOp) (seenTrue : Bool)
    (bs : List Bool) (es : List Expr) :
    evaluateAfter limit d op seenTrue bs level (e :: es) =
      evaluateAfter limit d op seenTrue (b :: bs) level es := by
  have hperm : (bs ++ [b]).Perm (b :: bs) := List.perm_append_singleton b bs
  have hlast : evaluateAfter limit d op seenTrue (bs ++ [b]) level es =
      evaluateAfter limit d op seenTrue (b :: bs) level es := by
    unfold evaluateAfter
    rw [op.settled?_perm seenTrue hperm, LogicalOp.or_perm hperm]
  rw [← hlast]
  unfold evaluateAfter
  rw [LogicalOp.settled?_append, evaluateLogical_cons h]
  cases op.settled? seenTrue bs with
  | some result => rfl
  | none =>
    rw [LogicalOp.settled?_cons, LogicalOp.or_append]
    cases op.decides? (seenTrue || bs.or) b with
    | some result => rfl
    | none => simp [LogicalOp.settled?, Bool.or_assoc]

def Stands (limit : Nat) (data : Context) (level : Nat) (e : Expr) : Operand → Prop
  | known b => ∀ w, e.evaluateAt limit data level = .ok w → w = .boolean b
  | unknown r => Refines limit data level level e r

theorem evaluateAfter_of_evaluateLogical {op : LogicalOp} {seenTrue b : Bool} {es : List Expr}
    {operands : List Operand} (hs : List.Forall₂ (Stands limit d level) es operands)
    (h : evaluateLogical limit d op seenTrue level es = .ok b) :
    evaluateAfter limit d op seenTrue (knowns operands) level (unknowns operands) = .ok b := by
  induction hs generalizing seenTrue with
  | nil =>
    rw [knowns_nil, unknowns_nil, evaluateAfter]
    simpa [LogicalOp.settled?] using h
  | @cons e x rest operands he _ ih =>
    obtain ⟨t, ht⟩ := exists_boolean_of_evaluateLogical h
    rw [evaluateLogical_cons ht] at h
    -- what stands for the first operand is read before the others, known or not
    have hfront : evaluateAfter limit d op seenTrue (knowns (x :: operands)) level
        (unknowns (x :: operands)) =
          evaluateAfter limit d op seenTrue (t :: knowns operands) level (unknowns operands) := by
      cases x with
      | known a =>
        obtain rfl := Value.boolean.inj (he _ ht)
        rfl
      | unknown r => exact evaluateAfter_operand (he _ ht) op seenTrue _ _
    rw [hfront, evaluateAfter_cons]
    cases hd : op.decides? seenTrue t with
    | some result => rwa [hd] at h
    | none =>
      rw [hd] at h
      exact ih h

theorem evaluateLogical_remaining {op : LogicalOp} {seenTrue b : Bool} {es : List Expr}
    (h : evaluateLogical limit d op seenTrue level es = .ok b) :
    evaluateLogical limit d (op.remaining seenTrue) false level es = .ok b := by
  cases seenTrue with
  | false => rwa [LogicalOp.remaining_false]
  | true =>
    -- the other connective may meet true operands too, and they change nothing for it
    suffices hany : ∀ seen, evaluateLogical limit d (op.remaining true) seen level es = .ok b from
      hany false
    induction es with
    | nil =>
      intro seen
      rw [evaluateLogical] at h ⊢
      rwa [LogicalOp.undecided_remaining]
    | cons e rest ih =>
      intro seen
      obtain ⟨t, ht⟩ := exists_boolean_of_evaluateLogical h
      rw [evaluateLogical_cons ht] at h ⊢
      rw [LogicalOp.decides?_remaining]
      cases hd : op.decides? true t with
      | some result => rwa [hd] at h
      | none =>
        rw [hd, Bool.true_or] at h
        exact ih h _

theorem evaluateLogical_single {op : LogicalOp} {seenTrue b : Bool} {e : Expr}
    (h : e.evaluateAt limit d level = .ok (.boolean b)) :
    evaluateLogical limit d op seenTrue level [e] =
      .ok (if op.negates seenTrue then !b else b) := by
  rw [← LogicalOp.result_single, evaluateLogical_cons h]
  cases op.decides? seenTrue b with
  | some result => rfl
  | none => rw [evaluateLogical]; rfl

theorem leftOver_admits (hl : level < limit) {op : LogicalOp} {seenTrue b : Bool} {es : List Expr}
    (h : evaluateLogical limit d op seenTrue (level + 1) es = .ok b) (o : Options) :
    (leftOver o op seenTrue es).Admits limit d level (.boolean b) := by
  match es with
  | [] =>
    rw [evaluateLogical] at h
    exact congrArg Value.boolean (Except.ok.inj h)
  | [e] =>
    obtain ⟨t, ht⟩ := exists_boolean_of_evaluateLogical h
    rw [evaluateLogical_single ht] at h
    cases Except.ok.inj h
    rw [leftOver]
    cases op.negates seenTrue with
    | true =>
      show (negate o e).evaluateAt limit d level = _
      rw [negate, evaluateAt_logical hl, evaluateLogical_single ht]
      rfl
    | false => exact refines_lower e (Nat.le_succ level) _ ht
  | e :: e' :: rest =>
    show (logical (op.remaining seenTrue) (e :: e' :: rest) o).evaluateAt limit d level = _
    rw [evaluateAt_logical hl, evaluateLogical_remaining h]
    rfl

theorem settleEach_eq_evaluateEach {es : List Expr} {vs ws : List Value}
    (ha : ∀ e ∈ es, ∀ w, e.evaluateAt limit d level = .ok w →
      (e.simplifyAt limit c level).Admits limit d level w)
    (hs : settleEach limit c level es = some vs)
    (h : evaluateEach limit d level es = .ok ws) : vs = ws := by
  induction es generalizing vs ws with
  | nil =>
    rw [settleEach] at hs
    rw [evaluateEach] at h
    exact (Option.some.inj hs).symm.trans (Except.ok.inj h)
  | cons e rest ih =>
    obtain ⟨v, vs', hv, hvs, rfl⟩ := settleEach_cons_eq_some_iff.1 hs
    obtain ⟨w, ws', hw, hws, rfl⟩ := evaluateEach_cons_eq_ok_iff.1 h
    have hvw := ha e (List.mem_cons_self ..) w hw
    rw [hv] at hvw
    rw [hvw, ih (fun e' he' => ha e' (List.mem_cons_of_mem _ he')) hvs hws]

theorem stands_of_admits {e : Expr}
    (ha : ∀ w, e.evaluateAt limit d level = .ok w →
      (e.simplifyAt limit c level).Admits limit d level w) :
    Stands limit d level e (operandAt limit c level e) := by
  rw [operandAt]
  cases hs : e.simplifyAt limit c level with
  | rest r =>
    intro w h
    have hr := ha w h
    rw [hs] at hr
    exact hr
  | value v =>
    cases v with
    | boolean b =>
      intro w h
      have hw := ha w h
      rw [hs] at hw
      exact hw.symm
    | _ => exact fun w h => h

theorem simplifyAt_admits (hd : d.Extends c) {e : Expr} {w : Value}
    (h : e.evaluateAt limit d level = .ok w) :
    (e.simplifyAt limit c level).Admits limit d level w := by
  have hl := lt_of_evaluateAt h
  induction e generalizing level w with
  | literal l =>
    rw [evaluateAt_literal hl] at h
    rw [simplifyAt_literal hl]
    exact Except.ok.inj h
  | reference r =>
    rw [simplifyAt_reference hl]
    cases hs : r.settle? c with
    | none => exact h
    | some v =>
      rw [evaluateAt_reference hl,
        Reference.evaluate_of_settle? (Reference.settle?_extends hd hs)] at h
      exact Except.ok.inj h
  | collection items o ih =>
    rw [simplifyAt_collection hl]
    cases hs : settleEach limit c (level + 1) items with
    | none => exact h
    | some vs =>
      rw [evaluateAt_collection hl] at h
      obtain ⟨ws, hws, rfl⟩ := map_eq_ok_iff.1 h
      have hvs := settleEach_eq_evaluateEach
        (fun e he w hw => ih e he hw (lt_of_evaluateAt hw)) hs hws
      exact congrArg Value.list hvs
  | comparison op es o ih =>
    rw [simplifyAt_comparison hl]
    cases hs : settleEach limit c (level + 1) es with
    | none => exact h
    | some vs =>
      rw [evaluateAt_comparison hl] at h
      obtain ⟨ws, hws, rfl⟩ := map_eq_ok_iff.1 h
      have hvs := settleEach_eq_evaluateEach
        (fun e he w hw => ih e he hw (lt_of_evaluateAt hw)) hs hws
      exact congrArg (fun values => Value.boolean (op.holds values)) hvs
  | logical op es o ih =>
    rw [evaluateAt_logical hl] at h
    obtain ⟨b, hb, rfl⟩ := map_eq_ok_iff.1 h
    have hstands : List.Forall₂ (Stands limit d (level + 1)) es
        (es.map (operandAt limit c (level + 1))) := by
      refine List.forall₂_map_right_iff.2 (List.forall₂_same.2 fun e he => ?_)
      exact stands_of_admits fun w hw => ih e he hw (lt_of_evaluateAt hw)
    have hafter := evaluateAfter_of_evaluateLogical hstands hb
    rw [simplifyAt_logical hl, conclude]
    -- the known operands decide, or the others are read behind them
    cases hsettled : op.settled? false (knowns (es.map (operandAt limit c (level + 1)))) with
    | some result =>
      simp only [evaluateAfter, hsettled] at hafter
      exact congrArg Value.boolean (Except.ok.inj hafter)
    | none =>
      simp only [evaluateAfter, hsettled] at hafter
      exact leftOver_admits hl hafter o

/-- Whatever an expression evaluates to once the context is more complete, simplifying it before
comes to that value, or to a remainder that evaluates to it under the same limit. -/
theorem simplify_sound (limit : Nat) {c d : Context} (hd : d.Extends c) (e : Expr) {w : Value}
    (h : e.evaluate limit d = .ok w) :
    (∀ v, e.simplify limit c = .value v → v = w) ∧
      ∀ r, e.simplify limit c = .rest r → r.evaluate limit d = .ok w := by
  have hadmits := simplifyAt_admits hd h
  constructor
  · intro v hv
    rw [simplify] at hv
    rwa [hv] at hadmits
  · intro r hr
    rw [simplify] at hr
    rwa [hr] at hadmits

def exactlyOne : Expr :=
  logical .xor [lookup "a", lookup "b", negate .default (lookup "c")] .default

end Expr

open RuleLogic.Expr Context

theorem simplify_sound_exactlyOne :
    knownAll.Extends knownA ∧ exactlyOne.evaluate 3 knownAll = .ok (.boolean true) ∧
      exactlyOne.simplify 3 knownA =
        .rest (logical .nor [lookup "b", negate .default (lookup "c")] .default) ∧
      (logical .nor [lookup "b", negate .default (lookup "c")] .default).evaluate 3 knownAll =
        .ok (.boolean true) :=
  ⟨knownAll_extends, rfl, rfl, (simplify_sound 3 knownAll_extends exactlyOne rfl).2 _ rfl⟩

end RuleLogic

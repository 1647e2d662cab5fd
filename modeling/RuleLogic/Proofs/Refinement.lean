import RuleLogic.Evaluation
import RuleLogic.Proofs.Structure
import Mathlib.Data.List.Forall2

/-! Expressions that keep the values of others. Values pass from operands to the expression above
them, so an expression keeps its value on every lower level. -/
namespace RuleLogic.Expr

variable {limit level lower : Nat} {data : Context}

/-- Where the first expression has a value, the second one has it too, each on its level. -/
def Refines (limit : Nat) (data : Context) (level lower : Nat) (e r : Expr) : Prop :=
  ∀ w, e.evaluateAt limit data level = .ok w → r.evaluateAt limit data lower = .ok w

theorem lt_of_evaluateAt {e : Expr} {w : Value} (h : e.evaluateAt limit data level = .ok w) :
    level < limit := by
  unfold evaluateAt at h
  split at h
  · contradiction
  · rename_i hl
    exact Nat.not_le.1 hl

theorem evaluateAt_literal (h : level < limit) (l : Literal) :
    (literal l).evaluateAt limit data level = .ok l.toValue := by
  rw [evaluateAt, if_neg (Nat.not_le.2 h)]

theorem evaluateAt_reference (h : level < limit) (r : Reference) :
    (reference r).evaluateAt limit data level = r.evaluate data := by
  rw [evaluateAt, if_neg (Nat.not_le.2 h)]

theorem evaluateAt_collection (h : level < limit) (items : List Expr) (o : Options) :
    (collection items o).evaluateAt limit data level =
      .list <$> evaluateEach limit data (level + 1) items := by
  rw [evaluateAt, if_neg (Nat.not_le.2 h)]

theorem evaluateAt_comparison (h : level < limit) (op : ComparisonOp) (es : List Expr)
    (o : Options) :
    (comparison op es o).evaluateAt limit data level =
      (fun values => .boolean (op.holds values)) <$> evaluateEach limit data (level + 1) es := by
  rw [evaluateAt, if_neg (Nat.not_le.2 h)]
  rfl

theorem evaluateAt_logical (h : level < limit) (op : LogicalOp) (es : List Expr) (o : Options) :
    (logical op es o).evaluateAt limit data level =
      .boolean <$> evaluateLogical limit data op false (level + 1) es := by
  rw [evaluateAt, if_neg (Nat.not_le.2 h)]

theorem map_eq_ok_iff {ε α β : Type} {f : α → β} {x : Except ε α} {b : β} :
    f <$> x = .ok b ↔ ∃ a, x = .ok a ∧ f a = b := by
  cases x <;> simp [Functor.map, Except.map]

theorem evaluateEach_cons_eq_ok_iff {e : Expr} {rest : List Expr} {vs : List Value} :
    evaluateEach limit data level (e :: rest) = .ok vs ↔
      ∃ v ws, e.evaluateAt limit data level = .ok v ∧
        evaluateEach limit data level rest = .ok ws ∧ v :: ws = vs := by
  rw [evaluateEach]
  cases e.evaluateAt limit data level <;> cases evaluateEach limit data level rest <;>
    simp [bind, Except.bind, pure, Except.pure]

theorem evaluateLogical_cons {e : Expr} {b : Bool}
    (h : e.evaluateAt limit data level = .ok (.boolean b)) (op : LogicalOp) (seenTrue : Bool)
    (rest : List Expr) :
    evaluateLogical limit data op seenTrue level (e :: rest) =
      match op.decides? seenTrue b with
      | some result => .ok result
      | none => evaluateLogical limit data op (seenTrue || b) level rest := by
  rw [evaluateLogical, h]
  rfl

theorem exists_boolean_of_evaluateLogical {op : LogicalOp} {seenTrue result : Bool} {e : Expr}
    {rest : List Expr}
    (h : evaluateLogical limit data op seenTrue level (e :: rest) = .ok result) :
    ∃ b, e.evaluateAt limit data level = .ok (.boolean b) := by
  rw [evaluateLogical] at h
  cases he : e.evaluateAt limit data level with
  | error fault =>
    rw [he] at h
    contradiction
  | ok v =>
    rw [he] at h
    cases v with
    | boolean b => exact ⟨b, rfl⟩
    | _ => contradiction

theorem evaluateEach_refines {es rs : List Expr} {vs : List Value}
    (hr : List.Forall₂ (Refines limit data level lower) es rs)
    (h : evaluateEach limit data level es = .ok vs) :
    evaluateEach limit data lower rs = .ok vs := by
  induction hr generalizing vs with
  | nil => exact h
  | cons he _ ih =>
    obtain ⟨v, ws, hv, hws, rfl⟩ := evaluateEach_cons_eq_ok_iff.1 h
    exact evaluateEach_cons_eq_ok_iff.2 ⟨v, ws, he v hv, ih hws, rfl⟩

theorem evaluateLogical_refines {op : LogicalOp} {seenTrue b : Bool} {es rs : List Expr}
    (hr : List.Forall₂ (Refines limit data level lower) es rs)
    (h : evaluateLogical limit data op seenTrue level es = .ok b) :
    evaluateLogical limit data op seenTrue lower rs = .ok b := by
  induction hr generalizing seenTrue with
  | nil => exact h
  | cons he _ ih =>
    obtain ⟨t, ht⟩ := exists_boolean_of_evaluateLogical h
    rw [evaluateLogical_cons ht] at h
    rw [evaluateLogical_cons (he _ ht)]
    cases hd : op.decides? seenTrue t with
    | some result => rwa [hd] at h
    | none =>
      rw [hd] at h
      exact ih h

/-- Less deep inside of other expressions, an expression keeps its value. -/
theorem refines_lower (e : Expr) (hl : lower ≤ level) : Refines limit data level lower e e := by
  induction e generalizing level lower with
  | literal l =>
    intro w h
    have hlt := lt_of_evaluateAt h
    rwa [evaluateAt_literal hlt, ← evaluateAt_literal (Nat.lt_of_le_of_lt hl hlt)] at h
  | reference r =>
    intro w h
    have hlt := lt_of_evaluateAt h
    rwa [evaluateAt_reference hlt, ← evaluateAt_reference (Nat.lt_of_le_of_lt hl hlt)] at h
  | collection items o ih =>
    intro w h
    have hlt := lt_of_evaluateAt h
    rw [evaluateAt_collection hlt] at h
    obtain ⟨vs, hvs, rfl⟩ := map_eq_ok_iff.1 h
    rw [evaluateAt_collection (Nat.lt_of_le_of_lt hl hlt)]
    refine map_eq_ok_iff.2 ⟨vs, evaluateEach_refines ?_ hvs, rfl⟩
    exact List.forall₂_same.2 fun e he => ih e he (Nat.succ_le_succ hl)
  | comparison op es o ih =>
    intro w h
    have hlt := lt_of_evaluateAt h
    rw [evaluateAt_comparison hlt] at h
    obtain ⟨vs, hvs, rfl⟩ := map_eq_ok_iff.1 h
    rw [evaluateAt_comparison (Nat.lt_of_le_of_lt hl hlt)]
    refine map_eq_ok_iff.2 ⟨vs, evaluateEach_refines ?_ hvs, rfl⟩
    exact List.forall₂_same.2 fun e he => ih e he (Nat.succ_le_succ hl)
  | logical op es o ih =>
    intro w h
    have hlt := lt_of_evaluateAt h
    rw [evaluateAt_logical hlt] at h
    obtain ⟨b, hb, rfl⟩ := map_eq_ok_iff.1 h
    rw [evaluateAt_logical (Nat.lt_of_le_of_lt hl hlt)]
    refine map_eq_ok_iff.2 ⟨b, evaluateLogical_refines ?_ hb, rfl⟩
    exact List.forall₂_same.2 fun e he => ih e he (Nat.succ_le_succ hl)

end RuleLogic.Expr

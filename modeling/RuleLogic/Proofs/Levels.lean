import RuleLogic.Proofs.Operand
import RuleLogic.Proofs.Structure

/-! Levels and limits in simplifying. An expression that fits under the limit comes to the same on
every level that it fits on, and nothing that is left of it is higher than it was. -/
namespace RuleLogic.Expr

open Operand

variable {limit limit' level level' : Nat} {c d : Context}

theorem settleEach_congr {es : List Expr}
    (h : ∀ e ∈ es, e.simplifyAt limit c level = e.simplifyAt limit' d level') :
    settleEach limit c level es = settleEach limit' d level' es := by
  induction es with
  | nil => rfl
  | cons e rest ih =>
    rw [settleEach, settleEach, h e (List.mem_cons_self ..),
      ih fun e' he' => h e' (List.mem_cons_of_mem _ he')]

theorem map_operandAt_congr {es : List Expr}
    (h : ∀ e ∈ es, e.simplifyAt limit c level = e.simplifyAt limit' d level') :
    es.map (operandAt limit c level) = es.map (operandAt limit' d level') :=
  List.map_congr_left fun e he => by rw [operandAt, operandAt, h e he]

theorem simplifyAt_level {e : Expr} (h : level + e.height ≤ limit)
    (h' : level' + e.height ≤ limit') :
    e.simplifyAt limit c level = e.simplifyAt limit' c level' := by
  induction e generalizing level level' with
  | literal l => rw [simplifyAt_literal (lt_of_fits h), simplifyAt_literal (lt_of_fits h')]
  | reference r => rw [simplifyAt_reference (lt_of_fits h), simplifyAt_reference (lt_of_fits h')]
  | collection items o ih =>
    rw [simplifyAt_collection (lt_of_fits h), simplifyAt_collection (lt_of_fits h'),
      settleEach_congr fun e he => ih e he (fits_of_mem he h) (fits_of_mem he h')]
  | comparison op es o ih =>
    rw [simplifyAt_comparison (lt_of_fits h), simplifyAt_comparison (lt_of_fits h'),
      settleEach_congr fun e he => ih e he (fits_of_mem he h) (fits_of_mem he h')]
  | logical op es o ih =>
    rw [simplifyAt_logical (lt_of_fits h), simplifyAt_logical (lt_of_fits h'),
      map_operandAt_congr fun e he => ih e he (fits_of_mem he h) (fits_of_mem he h')]

theorem mem_unknowns_iff {operands : List Operand} {r : Expr} :
    r ∈ unknowns operands ↔ unknown r ∈ operands := by
  simp only [unknowns, List.mem_filterMap]
  constructor
  · rintro ⟨x, hx, hr⟩
    cases x with
    | known b => contradiction
    | unknown e => exact Option.some.inj hr ▸ hx
  · exact fun h => ⟨_, h, rfl⟩

theorem eq_or_rest_of_operandAt {e r : Expr} (h : operandAt limit c level e = unknown r) :
    r = e ∨ e.simplifyAt limit c level = .rest r := by
  rw [operandAt] at h
  cases hs : e.simplifyAt limit c level with
  | rest r' =>
    rw [hs] at h
    cases h
    exact .inr rfl
  | value v =>
    rw [hs] at h
    cases v with
    | boolean b => contradiction
    | _ => cases h; exact .inl rfl

theorem exists_of_mem_unknowns {es : List Expr} {r : Expr}
    (h : r ∈ unknowns (es.map (operandAt limit c level))) :
    ∃ e ∈ es, r = e ∨ e.simplifyAt limit c level = .rest r := by
  obtain ⟨e, he, her⟩ := List.mem_map.1 (mem_unknowns_iff.1 h)
  exact ⟨e, he, eq_or_rest_of_operandAt her⟩

theorem heights_unknowns_le (level : Nat) {es : List Expr}
    (h : ∀ e ∈ es, ∀ r, e.simplifyAt limit c level = .rest r → r.height ≤ e.height) :
    heights (unknowns (es.map (operandAt limit c level))) ≤ heights es := by
  refine heights_le_iff.2 fun r hr => ?_
  obtain ⟨e, he, rfl | hrest⟩ := exists_of_mem_unknowns hr
  · exact height_le_heights he
  · exact Nat.le_trans (h e he r hrest) (height_le_heights he)

theorem height_le_of_leftOver {o : Options} {op : LogicalOp} {seenTrue : Bool} {es : List Expr}
    {r : Expr} (h : leftOver o op seenTrue es = .rest r) : r.height ≤ heights es + 1 := by
  match es with
  | [] => contradiction
  | [e] =>
    rw [leftOver] at h
    cases Simplified.rest.inj h
    split <;> simp [negate, height, heights]
  | e :: e' :: rest =>
    cases Simplified.rest.inj h
    exact Nat.le_refl _

/-- What simplifying leaves of an expression is related to it, if each expression is related to
itself, and a connective to all that is left over of its reduced operands. -/
theorem rest_induction {R : Expr → Expr → Prop} (self : ∀ e, R e e)
    (left : ∀ {op : LogicalOp} {es : List Expr} {o : Options} {level : Nat} {seenTrue : Bool}
      {r : Expr}, (∀ e ∈ es, ∀ r, e.simplifyAt limit c level = .rest r → R e r) →
        leftOver o op seenTrue (unknowns (es.map (operandAt limit c level))) = .rest r →
        R (logical op es o) r)
    {e r : Expr} (h : e.simplifyAt limit c level = .rest r) : R e r := by
  induction e generalizing level r with
  | logical op es o ih =>
    by_cases hl : level < limit
    · rw [simplifyAt_logical hl, conclude] at h
      split at h
      · contradiction
      · exact left (fun e he r hr => ih e he hr) h
    · rw [simplifyAt, if_pos (Nat.not_lt.1 hl)] at h
      exact Simplified.rest.inj h ▸ self _
  | _ =>
    rcases eq_or_logical_of_simplifyAt h with rfl | ⟨_, _, _, he⟩
    · exact self _
    · contradiction

theorem height_le_of_simplifyAt {e r : Expr} (h : e.simplifyAt limit c level = .rest r) :
    r.height ≤ e.height := by
  refine rest_induction (R := fun e r => r.height ≤ e.height) (fun _ => Nat.le_refl _) ?_ h
  intro op es o level seenTrue r ih hr
  exact Nat.le_trans (height_le_of_leftOver hr) (Nat.succ_le_succ (heights_unknowns_le level ih))

end RuleLogic.Expr

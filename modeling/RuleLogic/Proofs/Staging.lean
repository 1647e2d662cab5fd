import RuleLogic.Proofs.Extension
import RuleLogic.Proofs.Levels

/-! Simplifying in stages. An operand that was simplified before comes to the same in the grown
context as the operand itself, so a connective goes on from what was left of it. Only a remainder
that stands alone may be settled to no truth value where the connective would keep it. -/
namespace RuleLogic

variable {limit level : Nat} {c d : Context}

/-- What a remainder comes to is what the whole expression comes to. -/
def Simplified.Resumes (limit : Nat) (data : Context) (level : Nat) (stage whole : Simplified) :
    Prop :=
  match stage with
  | value v => whole = value v
  | rest r => r.simplifyAt limit data level = whole ∨
      ∃ w, w.boolean? = none ∧ r.simplifyAt limit data level = value w ∧ whole = rest r

namespace Operand

def again (limit : Nat) (data : Context) (level : Nat) : Operand → Operand
  | known b => known b
  | unknown e => e.operandAt limit data level

theorem knowns_again_perm (limit : Nat) (data : Context) (level : Nat) (operands : List Operand) :
    (knowns (operands.map (again limit data level))).Perm
      (knowns operands ++ knowns ((unknowns operands).map (Expr.operandAt limit data level))) := by
  induction operands with
  | nil => exact .refl _
  | cons x rest ih =>
    cases x with
    | known b => exact ih.cons b
    | unknown e =>
      simp only [List.map_cons, again, knowns_unknown, unknowns_unknown]
      cases e.operandAt limit data level with
      | known b => exact (ih.cons b).trans List.perm_middle.symm
      | unknown r => exact ih

theorem unknowns_again (operands : List Operand) :
    unknowns (operands.map (again limit d level)) =
      unknowns ((unknowns operands).map (Expr.operandAt limit d level)) := by
  induction operands with
  | nil => rfl
  | cons x rest ih =>
    cases x with
    | known b => exact ih
    | unknown e =>
      simp only [List.map_cons, again, unknowns_unknown]
      cases e.operandAt limit d level with
      | known b => exact ih
      | unknown r => exact congrArg (r :: ·) ih

end Operand

namespace Expr

open Operand

theorem conclude_again (o : Options) (op : LogicalOp) (seenTrue : Bool)
    (operands : List Operand) :
    conclude o op seenTrue (operands.map (again limit d level)) =
      match op.settled? seenTrue (knowns operands) with
      | some result => .value (.boolean result)
      | none => conclude o op (seenTrue || (knowns operands).or)
          ((unknowns operands).map (operandAt limit d level)) := by
  have hperm := knowns_again_perm limit d level operands
  unfold conclude
  rw [op.settled?_perm seenTrue hperm, LogicalOp.or_perm hperm, LogicalOp.settled?_append,
    LogicalOp.or_append, unknowns_again]
  cases op.settled? seenTrue (knowns operands) with
  | some result => rfl
  | none => simp only [Option.none_or, Bool.or_assoc]

theorem conclude_single (o : Options) (op : LogicalOp) (seenTrue : Bool) (x : Operand) :
    conclude o op seenTrue [x] =
      match x with
      | known b => .value (.boolean (if op.negates seenTrue then !b else b))
      | unknown e => .rest (if op.negates seenTrue then negate o e else e) := by
  cases x with
  | known b =>
    show _ = Simplified.value (.boolean (if op.negates seenTrue then !b else b))
    rw [conclude, knowns_known, knowns_nil, LogicalOp.settled?, ← op.result_single seenTrue b]
    cases op.decides? seenTrue b with
    | some result => rfl
    | none => simp [LogicalOp.settled?, leftOver]
  | unknown e => simp [conclude, LogicalOp.settled?, leftOver]

theorem leftOver_remaining (o : Options) (op : LogicalOp) (seenTrue : Bool) (es : List Expr) :
    leftOver o (op.remaining true) seenTrue es = leftOver o op true es := by
  match es with
  | [] => rw [leftOver, leftOver, LogicalOp.undecided_remaining]
  | [e] => rw [leftOver, leftOver, LogicalOp.negates_remaining]
  | e :: e' :: rest =>
    show Simplified.rest _ = Simplified.rest _
    rw [LogicalOp.remaining_remaining]

theorem conclude_remaining (o : Options) (op : LogicalOp) (seenTrue : Bool)
    (operands : List Operand) :
    conclude o (op.remaining seenTrue) false operands = conclude o op seenTrue operands := by
  cases seenTrue with
  | false => rw [LogicalOp.remaining_false]
  | true =>
    unfold conclude
    rw [LogicalOp.settled?_remaining, leftOver_remaining, Bool.true_or]

theorem leftOver_resumes (hl : level < limit) (o : Options) (op : LogicalOp) (seenTrue : Bool)
    {es : List Expr} (hes : ∀ e ∈ es, level + 1 + e.height ≤ limit) :
    (leftOver o op seenTrue es).Resumes limit d level
      (conclude o op seenTrue (es.map (operandAt limit d (level + 1)))) := by
  match es with
  | [] => simp [leftOver, Simplified.Resumes, conclude, LogicalOp.settled?]
  | [e] =>
    rw [List.map_cons, List.map_nil, conclude_single, leftOver]
    cases op.negates seenTrue with
    | true =>
      refine .inl ?_
      show (negate o e).simplifyAt limit d level = _
      rw [negate, simplifyAt_logical hl, List.map_cons, List.map_nil, conclude_single]
      rfl
    | false =>
      have hfits := hes e (List.mem_cons_self ..)
      have hlevel : e.simplifyAt limit d level = e.simplifyAt limit d (level + 1) :=
        simplifyAt_level (by omega) hfits
      rw [operandAt, ← hlevel, if_neg Bool.false_ne_true]
      unfold Simplified.Resumes
      cases hs : e.simplifyAt limit d level with
      | rest r => exact .inl hs
      | value w =>
        cases w with
        | boolean b => exact .inl hs
        | _ => exact .inr ⟨_, rfl, hs, rfl⟩ -- settled alone, kept inside of the connective
  | e :: e' :: rest =>
    refine .inl ?_
    show (logical (op.remaining seenTrue) (e :: e' :: rest) o).simplifyAt limit d level = _
    rw [simplifyAt_logical hl, conclude_remaining]

theorem operandAt_again {e : Expr}
    (h : (e.simplifyAt limit c level).Resumes limit d level (e.simplifyAt limit d level)) :
    (e.operandAt limit c level).again limit d level = e.operandAt limit d level := by
  rw [operandAt]
  cases hs : e.simplifyAt limit c level with
  | value v =>
    rw [hs] at h
    cases v with
    | boolean b =>
      rw [operandAt, show e.simplifyAt limit d level = .value (.boolean b) from h]
      rfl
    | _ => rfl
  | rest r =>
    rw [hs] at h
    show r.operandAt limit d level = e.operandAt limit d level
    rw [operandAt, operandAt]
    rcases h with h | ⟨w, hw, hr, he⟩
    · rcases eq_or_logical_of_simplifyAt hs with rfl | ⟨op, es, o, rfl⟩
      · rfl
      · -- a connective never comes to a value that an operand is kept for
        rw [h]
        cases hd : (logical op es o).simplifyAt limit d level with
        | rest r' => rfl
        | value v =>
          obtain ⟨b, rfl⟩ := boolean?_of_simplifyAt_logical hd
          rfl
    · rw [hr, he, Simplified.operand_value hw]
      rfl

theorem settleEach_extends {es : List Expr} {vs : List Value}
    (h : ∀ e ∈ es, (e.simplifyAt limit c level).Resumes limit d level (e.simplifyAt limit d level))
    (hs : settleEach limit c level es = some vs) : settleEach limit d level es = some vs := by
  induction es generalizing vs with
  | nil => exact hs
  | cons e rest ih =>
    obtain ⟨v, ws, hv, hws, rfl⟩ := settleEach_cons_eq_some_iff.1 hs
    have he := h e (List.mem_cons_self ..)
    rw [hv] at he
    exact settleEach_cons_eq_some_iff.2
      ⟨v, ws, he, ih (fun e' he' => h e' (List.mem_cons_of_mem _ he')) hws, rfl⟩

theorem simplifyAt_resumes (hd : d.Extends c) {e : Expr} (h : level + e.height ≤ limit) :
    (e.simplifyAt limit c level).Resumes limit d level (e.simplifyAt limit d level) := by
  have hl := lt_of_fits h
  induction e generalizing level with
  | literal l =>
    rw [simplifyAt_literal hl, simplifyAt_literal hl]
    rfl
  | reference r =>
    rw [simplifyAt_reference hl]
    cases hs : r.settle? c with
    | none => exact .inl rfl
    | some v =>
      rw [simplifyAt_reference hl, Reference.settle?_extends hd hs]
      rfl
  | collection items o ih =>
    rw [simplifyAt_collection hl]
    cases hs : settleEach limit c (level + 1) items with
    | none => exact .inl rfl
    | some vs =>
      rw [simplifyAt_collection hl, settleEach_extends (fun e he =>
        ih e he (fits_of_mem he h) (lt_of_fits (fits_of_mem he h))) hs]
      rfl
  | comparison op es o ih =>
    rw [simplifyAt_comparison hl]
    cases hs : settleEach limit c (level + 1) es with
    | none => exact .inl rfl
    | some vs =>
      rw [simplifyAt_comparison hl, settleEach_extends (fun e he =>
        ih e he (fits_of_mem he h) (lt_of_fits (fits_of_mem he h))) hs]
      rfl
  | logical op es o ih =>
    have hagain : es.map (operandAt limit d (level + 1)) =
        (es.map (operandAt limit c (level + 1))).map (again limit d (level + 1)) := by
      rw [List.map_map]
      refine List.map_congr_left fun e he => ?_
      exact (operandAt_again
        (ih e he (fits_of_mem he h) (lt_of_fits (fits_of_mem he h)))).symm
    rw [simplifyAt_logical hl, simplifyAt_logical hl, hagain, conclude_again]
    generalize hops : es.map (operandAt limit c (level + 1)) = operands
    unfold conclude
    cases op.settled? false (knowns operands) with
    | some result => rfl
    | none =>
      refine leftOver_resumes hl o op _ fun e he => ?_
      have hle : e.height ≤ heights es := by
        rw [← hops] at he
        exact Nat.le_trans (height_le_heights he)
          (heights_unknowns_le (level + 1) fun e' _ r hr => height_le_of_simplifyAt hr)
      simp only [height] at h
      omega

/-- Simplifying in a context and then in a grown one comes to what simplifying in the grown one
comes to at once. The exception is a last operand that turns out to be no truth value: alone it is
settled, and inside of its connective it is kept. -/
theorem simplify_staged (limit : Nat) {c d : Context} (hd : d.Extends c) (e : Expr)
    (h : e.height ≤ limit) :
    (∀ v, e.simplify limit c = .value v → e.simplify limit d = .value v) ∧
      ∀ r, e.simplify limit c = .rest r →
        r.simplify limit d = e.simplify limit d ∨
          ∃ w, (∀ b, w ≠ .boolean b) ∧ r.simplify limit d = .value w ∧
            e.simplify limit d = .rest r := by
  have hfits : 0 + e.height ≤ limit := by omega
  have hresumes := simplifyAt_resumes hd hfits
  constructor
  · intro v hv
    rw [simplify] at hv
    rwa [hv] at hresumes
  · intro r hr
    rw [simplify] at hr
    rw [hr] at hresumes
    rcases hresumes with hsame | ⟨w, hw, hrest, hwhole⟩
    · exact .inl hsame
    · refine .inr ⟨w, fun b hb => ?_, hrest, hwhole⟩
      rw [hb] at hw
      contradiction

def bothOf : Expr := logical .and [lookup "a", lookup "n"] .default

end Expr

open RuleLogic.Expr Context

theorem simplify_staged_bothOf :
    (knownA.insert "n" (.integer 5)).Extends knownA ∧ bothOf.height ≤ 2 ∧
      bothOf.simplify 2 knownA = .rest (lookup "n") ∧
      ∃ w, (∀ b, w ≠ .boolean b) ∧
        (lookup "n").simplify 2 (knownA.insert "n" (.integer 5)) = .value w ∧
        bothOf.simplify 2 (knownA.insert "n" (.integer 5)) = .rest (lookup "n") := by
  have hd : (knownA.insert "n" (.integer 5)).Extends knownA := extends_insert rfl _
  refine ⟨hd, by decide, rfl, ?_⟩
  have hstaged := (simplify_staged 2 hd bothOf (by decide)).2 (lookup "n") rfl
  refine hstaged.resolve_left fun hsame => ?_
  exact nomatch (hsame : Simplified.value (.integer 5) = .rest (lookup "n"))

end RuleLogic

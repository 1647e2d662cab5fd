import RuleLogic.Proofs.Counter
import RuleLogic.Proofs.Faults
import Mathlib.Data.List.Induction

/-! Connectives as results of their operands. A connective reads the results from left to right up
to the operand that decides it, the first of a truth value or the second, and the first fault before
that one is its own. Of the operands nothing else counts, and nothing at all of those behind. -/
namespace RuleLogic

abbrev Outcome := Except EvalFault Value

namespace Outcome

def isTruth (b : Bool) : Outcome → Bool
  | .ok (.boolean t) => t == b
  | _ => false

/-- What makes an operand a fault of the connective around it. -/
def fault? (op : LogicalOp) : Outcome → Option EvalFault
  | .error fault => some fault
  | .ok (.boolean _) => none
  | .ok _ => some (.notBoolean op)

def AllTruths (rs : List Outcome) : Prop := ∀ r ∈ rs, ∃ b, r = .ok (.boolean b)

def count (b : Bool) (rs : List Outcome) : Nat := rs.countP (isTruth b)

theorem isTruth_iff {b : Bool} {r : Outcome} : isTruth b r = true ↔ r = .ok (.boolean b) := by
  cases r with
  | error fault => simp [isTruth]
  | ok v => cases v <;> simp [isTruth]

theorem fault?_eq_none_iff {op : LogicalOp} {r : Outcome} :
    fault? op r = none ↔ ∃ b, r = .ok (.boolean b) := by
  cases r with
  | error fault => simp [fault?]
  | ok v => cases v <;> simp [fault?]

theorem allTruths_cons {r : Outcome} {rs : List Outcome} :
    AllTruths (r :: rs) ↔ (∃ b, r = .ok (.boolean b)) ∧ AllTruths rs :=
  List.forall_mem_cons

@[simp] theorem count_nil (b : Bool) : count b [] = 0 := rfl

theorem count_truth_cons (b t : Bool) (rs : List Outcome) :
    count b (.ok (.boolean t) :: rs) = count b rs + if t = b then 1 else 0 := by
  rw [count, List.countP_cons]
  simp [isTruth, count]

theorem count_append (b : Bool) (xs ys : List Outcome) :
    count b (xs ++ ys) = count b xs + count b ys :=
  List.countP_append

theorem exists_first_fault {op : LogicalOp} {r : Outcome} (hfault : fault? op r ≠ none)
    (before after : List Outcome) :
    ∃ first r' rest, before ++ r :: after = first ++ r' :: rest ∧ first <+: before ∧
      AllTruths first ∧ fault? op r' ≠ none := by
  induction before with
  | nil => exact ⟨[], r, after, rfl, List.nil_prefix, List.forall_mem_nil _, hfault⟩
  | cons x before ih =>
    by_cases hx : fault? op x = none
    · obtain ⟨first, r', rest, heq, hfirst, htruths, hr'⟩ := ih
      refine ⟨x :: first, r', rest, congrArg (x :: ·) heq, ?_, ?_, hr'⟩
      · exact List.cons_prefix_cons.2 ⟨rfl, hfirst⟩
      · exact allTruths_cons.2 ⟨fault?_eq_none_iff.1 hx, htruths⟩
    · exact ⟨[], x, before ++ r :: after, rfl, List.nil_prefix, List.forall_mem_nil _, hx⟩

theorem allTruths_and_count_eq_zero_iff {b : Bool} {rs : List Outcome} :
    AllTruths rs ∧ count b rs = 0 ↔ ∀ r ∈ rs, r = .ok (.boolean !b) := by
  simp only [AllTruths, count, List.countP_eq_zero, ← forall₂_and]
  refine forall₂_congr fun r _ => ⟨?_, ?_⟩
  · rintro ⟨⟨t, rfl⟩, ht⟩
    have hne : t ≠ b := by simpa [isTruth] using ht
    rw [Bool.eq_not.2 hne]
  · rintro rfl
    exact ⟨⟨_, rfl⟩, by simp [isTruth]⟩

end Outcome

open Outcome

namespace LogicalOp

/-- The truth value of the operands that decide: false for `and`, true for the others. -/
def counts : LogicalOp → Bool
  | and => false
  | _ => true

/-- Which of these operands decides: the second for `xor`, the first for the others. -/
def quorum : LogicalOp → Nat
  | xor => 2
  | _ => 1

def decision : LogicalOp → Bool
  | or => true
  | _ => false

/-- An operand that decides a connective, after the results of those before it. -/
def Decider (op : LogicalOp) (before : List Outcome) (r : Outcome) : Prop :=
  r = .ok (.boolean op.counts) ∧ count op.counts before + 1 = op.quorum

def Decided (op : LogicalOp) (rs : List Outcome) : Prop :=
  ∃ before r after, rs = before ++ r :: after ∧ op.Decider before r

theorem decided_iff {op : LogicalOp} {rs : List Outcome} :
    op.Decided rs ↔ op.quorum ≤ count op.counts rs := by
  constructor
  · rintro ⟨before, r, after, rfl, rfl, hcount⟩
    rw [count_append, count_truth_cons, if_pos rfl]
    omega
  · intro h
    induction rs using List.reverseRecOn with
    | nil =>
      have hpos : 0 < op.quorum := by cases op <;> decide
      rw [count_nil] at h
      omega
    | append_singleton rs r ih =>
      by_cases hle : op.quorum ≤ count op.counts rs
      · obtain ⟨before, y, after, rfl, hy⟩ := ih hle
        exact ⟨before, y, after ++ [r], by simp, hy⟩
      · rw [count_append, count, count, List.countP_singleton, ← count] at h
        have htruth : isTruth op.counts r = true := by
          by_contra hno
          rw [if_neg hno] at h
          omega
        rw [if_pos htruth] at h
        exact ⟨rs, r, [], rfl, isTruth_iff.1 htruth, by omega⟩

def needed (op : LogicalOp) (seenTrue : Bool) : Nat :=
  match op with
  | xor => if seenTrue then 1 else 2
  | _ => 1

theorem needed_false (op : LogicalOp) : op.needed false = op.quorum := by
  cases op <;> rfl

theorem needed_pos (op : LogicalOp) (seenTrue : Bool) : 0 < op.needed seenTrue := by
  cases op <;> cases seenTrue <;> decide

theorem decides?_eq (op : LogicalOp) (seenTrue b : Bool) :
    op.decides? seenTrue b =
      if b = op.counts ∧ op.needed seenTrue = 1 then some op.decision else none := by
  cases op <;> cases seenTrue <;> cases b <;> rfl

theorem needed_or {op : LogicalOp} {seenTrue b : Bool}
    (h : ¬(b = op.counts ∧ op.needed seenTrue = 1)) :
    op.needed seenTrue = op.needed (seenTrue || b) + if b = op.counts then 1 else 0 := by
  cases op <;> cases seenTrue <;> cases b <;> simp_all [counts, needed]

def resultOf (op : LogicalOp) (seenTrue : Bool) : List Outcome → Except EvalFault Bool
  | [] => .ok (op.undecided seenTrue)
  | r :: rest =>
    match r >>= Expr.truth op with
    | .error fault => .error fault
    | .ok b =>
      match op.decides? seenTrue b with
      | some result => .ok result
      | none => op.resultOf (seenTrue || b) rest

variable {op : LogicalOp} {seenTrue : Bool}

theorem resultOf_truth (op : LogicalOp) (seenTrue b : Bool) (rest : List Outcome) :
    op.resultOf seenTrue (.ok (.boolean b) :: rest) =
      if b = op.counts ∧ op.needed seenTrue = 1 then .ok op.decision
      else op.resultOf (seenTrue || b) rest := by
  show (match op.decides? seenTrue b with | some result => _ | none => _) = _
  rw [decides?_eq]
  by_cases h : b = op.counts ∧ op.needed seenTrue = 1
  · rw [if_pos h, if_pos h]
  · rw [if_neg h, if_neg h]

theorem resultOf_fault {r : Outcome} {fault : EvalFault} (h : fault? op r = some fault)
    (seenTrue : Bool) (rest : List Outcome) :
    op.resultOf seenTrue (r :: rest) = .error fault := by
  cases r with
  | error f =>
    obtain rfl := Option.some.inj h
    rfl
  | ok v =>
    cases v with
    | boolean b => contradiction
    | _ =>
      obtain rfl := Option.some.inj h
      rfl

theorem resultOf_append {before : List Outcome} (hbefore : AllTruths before)
    (hcount : count op.counts before < op.needed seenTrue) (rest : List Outcome) :
    ∃ seen, op.resultOf seenTrue (before ++ rest) = op.resultOf seen rest ∧
      seen = (seenTrue || decide (0 < count true before)) ∧
      op.needed seenTrue = op.needed seen + count op.counts before := by
  induction before generalizing seenTrue with
  | nil => exact ⟨seenTrue, rfl, by simp, by simp⟩
  | cons r before ih =>
    obtain ⟨⟨b, rfl⟩, hrest⟩ := allTruths_cons.1 hbefore
    rw [count_truth_cons] at hcount
    have hgoes : ¬(b = op.counts ∧ op.needed seenTrue = 1) := by
      rintro ⟨hb, hone⟩
      rw [if_pos hb, hone] at hcount
      omega
    have hneeded := needed_or hgoes
    have hless : count op.counts before < op.needed (seenTrue || b) := by omega
    obtain ⟨seen, hresult, hseen, hleft⟩ := ih hrest hless
    refine ⟨seen, ?_, ?_, ?_⟩
    · rw [List.cons_append, resultOf_truth, if_neg hgoes, hresult]
    · rw [hseen, count_truth_cons]
      cases b <;> simp
    · rw [count_truth_cons]
      omega

/-- How a connective comes to its result: by the operand that decides, with none of them, or by a
fault before it. -/
inductive Concludes (op : LogicalOp) (seenTrue : Bool) (rs : List Outcome) :
    Except EvalFault Bool → Prop
  | decided (before after : List Outcome) :
      rs = before ++ .ok (.boolean op.counts) :: after → AllTruths before →
      count op.counts before + 1 = op.needed seenTrue → Concludes op seenTrue rs (.ok op.decision)
  | undecided :
      AllTruths rs → count op.counts rs < op.needed seenTrue →
      Concludes op seenTrue rs (.ok (op.undecided (seenTrue || decide (0 < count true rs))))
  | faulty (before after : List Outcome) {r : Outcome} {fault : EvalFault} :
      rs = before ++ r :: after → AllTruths before →
      count op.counts before < op.needed seenTrue → fault? op r = some fault →
      Concludes op seenTrue rs (.error fault)

theorem Concludes.resultOf_eq {rs : List Outcome} {result : Except EvalFault Bool}
    (h : Concludes op seenTrue rs result) : op.resultOf seenTrue rs = result := by
  cases h with
  | decided before after hrs hbefore hcount =>
    have hless : count op.counts before < op.needed seenTrue := by omega
    obtain ⟨seen, hresult, -, hneeded⟩ := resultOf_append hbefore hless (_ :: after)
    have hone : op.needed seen = 1 := by omega
    rw [hrs, hresult, resultOf_truth, if_pos ⟨rfl, hone⟩]
  | undecided hrs hcount =>
    obtain ⟨seen, hresult, hseen, -⟩ := resultOf_append hrs hcount []
    rw [List.append_nil] at hresult
    rw [hresult, hseen, resultOf]
  | @faulty before after r fault hrs hbefore hcount hfault =>
    obtain ⟨seen, hresult, -, -⟩ := resultOf_append hbefore hcount (r :: after)
    rw [hrs, hresult, resultOf_fault hfault]

theorem Concludes.cons {b : Bool} {rest : List Outcome} {result : Except EvalFault Bool}
    (hgoes : ¬(b = op.counts ∧ op.needed seenTrue = 1))
    (h : Concludes op (seenTrue || b) rest result) :
    Concludes op seenTrue (.ok (.boolean b) :: rest) result := by
  have hneeded := needed_or hgoes
  cases h with
  | decided before after hrest hbefore hcount =>
    subst hrest
    refine .decided (.ok (.boolean b) :: before) after rfl
      (allTruths_cons.2 ⟨⟨b, rfl⟩, hbefore⟩) ?_
    rw [count_truth_cons]
    omega
  | undecided hrest hcount =>
    have hseen : (seenTrue || b || decide (0 < count true rest)) =
        (seenTrue || decide (0 < count true (.ok (.boolean b) :: rest))) := by
      rw [count_truth_cons]
      cases b <;> simp
    rw [hseen]
    refine .undecided (allTruths_cons.2 ⟨⟨b, rfl⟩, hrest⟩) ?_
    rw [count_truth_cons]
    omega
  | @faulty before after r fault hrest hbefore hcount hfault =>
    subst hrest
    refine .faulty (.ok (.boolean b) :: before) after rfl
      (allTruths_cons.2 ⟨⟨b, rfl⟩, hbefore⟩) ?_ hfault
    rw [count_truth_cons]
    omega

theorem concludes_resultOf (op : LogicalOp) (seenTrue : Bool) (rs : List Outcome) :
    Concludes op seenTrue rs (op.resultOf seenTrue rs) := by
  induction rs generalizing seenTrue with
  | nil =>
    have hnone : Concludes op seenTrue [] (.ok (op.undecided (seenTrue || false))) :=
      .undecided (List.forall_mem_nil _) (op.needed_pos seenTrue)
    rwa [Bool.or_false] at hnone
  | cons r rest ih =>
    cases hfault : fault? op r with
    | some fault =>
      rw [resultOf_fault hfault]
      exact .faulty [] rest rfl (List.forall_mem_nil _) (op.needed_pos seenTrue) hfault
    | none =>
      obtain ⟨b, rfl⟩ := fault?_eq_none_iff.1 hfault
      rw [resultOf_truth]
      by_cases hgoes : b = op.counts ∧ op.needed seenTrue = 1
      · obtain ⟨rfl, hone⟩ := hgoes
        rw [if_pos ⟨rfl, hone⟩]
        exact .decided [] rest rfl (List.forall_mem_nil _) hone.symm
      · rw [if_neg hgoes]
        exact .cons hgoes (ih _)

theorem resultOf_behind {before : List Outcome}
    (hcount : op.needed seenTrue ≤ count op.counts before + 1) (after others : List Outcome) :
    op.resultOf seenTrue (before ++ .ok (.boolean op.counts) :: others) =
      op.resultOf seenTrue (before ++ .ok (.boolean op.counts) :: after) := by
  induction before generalizing seenTrue with
  | nil =>
    have hone : op.needed seenTrue = 1 := by
      have hpos := op.needed_pos seenTrue
      rw [count_nil] at hcount
      omega
    rw [List.nil_append, List.nil_append, resultOf_truth, resultOf_truth, if_pos ⟨rfl, hone⟩,
      if_pos ⟨rfl, hone⟩]
  | cons r before ih =>
    rw [List.cons_append, List.cons_append]
    cases hfault : fault? op r with
    | some fault => rw [resultOf_fault hfault, resultOf_fault hfault]
    | none =>
      obtain ⟨b, rfl⟩ := fault?_eq_none_iff.1 hfault
      rw [resultOf_truth, resultOf_truth]
      split
      · rfl
      · rename_i hgoes
        have hneeded := needed_or hgoes
        rw [count_truth_cons] at hcount
        exact ih (by omega)

/-! For the connectives that one operand decides. -/

theorem undecided_eq_not_decision (h : op.quorum = 1) (seenTrue : Bool) :
    op.undecided seenTrue = !op.decision := by
  cases op <;> first | rfl | contradiction

theorem resultOf_eq_decision_iff (h : op.quorum = 1) {rs : List Outcome} :
    op.resultOf false rs = .ok op.decision ↔ ∃ before after,
      rs = before ++ .ok (.boolean op.counts) :: after ∧
        ∀ r ∈ before, r = .ok (.boolean !op.counts) := by
  constructor
  · intro hresult
    have hconcludes := concludes_resultOf op false rs
    generalize op.resultOf false rs = result at hconcludes hresult
    cases hconcludes with
    | decided before after hrs hbefore hcount =>
      rw [needed_false, h] at hcount
      exact ⟨before, after, hrs, allTruths_and_count_eq_zero_iff.1 ⟨hbefore, by omega⟩⟩
    | undecided =>
      have hdecision := Except.ok.inj hresult
      rw [undecided_eq_not_decision h] at hdecision
      simp at hdecision
    | faulty => contradiction
  · rintro ⟨before, after, hrs, hbefore⟩
    obtain ⟨htruths, hcount⟩ := allTruths_and_count_eq_zero_iff.2 hbefore
    have hone : count op.counts before + 1 = op.needed false := by rw [hcount, needed_false, h]
    exact (Concludes.decided before after hrs htruths hone).resultOf_eq

theorem resultOf_eq_not_decision_iff (h : op.quorum = 1) {rs : List Outcome} :
    op.resultOf false rs = .ok (!op.decision) ↔ ∀ r ∈ rs, r = .ok (.boolean !op.counts) := by
  constructor
  · intro hresult
    have hconcludes := concludes_resultOf op false rs
    generalize op.resultOf false rs = result at hconcludes hresult
    cases hconcludes with
    | decided => simp at hresult
    | undecided hrs hcount =>
      rw [needed_false, h] at hcount
      exact allTruths_and_count_eq_zero_iff.1 ⟨hrs, by omega⟩
    | faulty => contradiction
  · intro hrs
    obtain ⟨htruths, hcount⟩ := allTruths_and_count_eq_zero_iff.2 hrs
    have hless : count op.counts rs < op.needed false := by
      rw [hcount]
      exact op.needed_pos false
    rw [(Concludes.undecided htruths hless).resultOf_eq, undecided_eq_not_decision h]

/-! For `xor`. -/

theorem resultOf_xor_eq_false_iff {rs : List Outcome} :
    xor.resultOf false rs = .ok false ↔
      (∃ before after, rs = before ++ .ok (.boolean true) :: after ∧ AllTruths before ∧
        count true before = 1) ∨ AllTruths rs ∧ count true rs = 0 := by
  constructor
  · intro hresult
    have hconcludes := concludes_resultOf xor false rs
    generalize xor.resultOf false rs = result at hconcludes hresult
    cases hconcludes with
    | decided before after hrs hbefore hcount =>
      exact .inl ⟨before, after, hrs, hbefore, Nat.succ.inj hcount⟩
    | undecided hrs hcount =>
      have hnone : decide (0 < count true rs) = false := Except.ok.inj hresult
      exact .inr ⟨hrs, by simpa using hnone⟩
    | faulty => contradiction
  · rintro (⟨before, after, hrs, hbefore, hcount⟩ | ⟨hrs, hcount⟩)
    · have htwo : count (counts xor) before + 1 = xor.needed false := congrArg (· + 1) hcount
      exact (Concludes.decided before after hrs hbefore htwo).resultOf_eq
    · have hless : count (counts xor) rs < xor.needed false := by
        show count true rs < 2
        omega
      rw [(Concludes.undecided hrs hless).resultOf_eq, hcount]
      rfl

theorem resultOf_xor_eq_true_iff {rs : List Outcome} :
    xor.resultOf false rs = .ok true ↔ AllTruths rs ∧ count true rs = 1 := by
  constructor
  · intro hresult
    have hconcludes := concludes_resultOf xor false rs
    generalize xor.resultOf false rs = result at hconcludes hresult
    cases hconcludes with
    | decided => cases hresult
    | undecided hrs hcount =>
      have hsome : decide (0 < count true rs) = true := Except.ok.inj hresult
      have hpos : 0 < count true rs := of_decide_eq_true hsome
      have hless : count true rs < 2 := hcount
      exact ⟨hrs, by omega⟩
    | faulty => contradiction
  · rintro ⟨hrs, hcount⟩
    have hless : count (counts xor) rs < xor.needed false := by
      show count true rs < 2
      omega
    rw [(Concludes.undecided hrs hless).resultOf_eq, hcount]
    rfl

/-! Faults. -/

theorem resultOf_eq_error_of_first {before after : List Outcome} {r : Outcome} {fault : EvalFault}
    (hbefore : AllTruths before) (hfault : fault? op r = some fault) (h : ¬op.Decided before) :
    op.resultOf false (before ++ r :: after) = .error fault := by
  have hless : count op.counts before < op.needed false := by
    rw [needed_false]
    exact Nat.not_le.1 fun hle => h (decided_iff.2 hle)
  exact (Concludes.faulty before after rfl hbefore hless hfault).resultOf_eq

theorem exists_resultOf_eq_error_iff {rs : List Outcome} :
    (∃ fault, op.resultOf false rs = .error fault) ↔
      ∃ before r after, rs = before ++ r :: after ∧ fault? op r ≠ none ∧ ¬op.Decided before := by
  constructor
  · rintro ⟨fault, hresult⟩
    have hconcludes := concludes_resultOf op false rs
    generalize op.resultOf false rs = result at hconcludes hresult
    cases hconcludes with
    | decided => contradiction
    | undecided => contradiction
    | @faulty before after r fault' hrs hbefore hcount hfault =>
      rw [needed_false] at hcount
      refine ⟨before, r, after, hrs, by simp [hfault], fun hdecided => ?_⟩
      exact absurd (decided_iff.1 hdecided) (Nat.not_le.2 hcount)
  · rintro ⟨before, r, after, rfl, hfault, hdecided⟩
    obtain ⟨first, r', rest, heq, hfirst, htruths, hr'⟩ := exists_first_fault hfault before after
    obtain ⟨fault, hfault'⟩ := Option.ne_none_iff_exists'.1 hr'
    have hnone : ¬op.Decided first := by
      rw [decided_iff] at hdecided ⊢
      exact fun hle => hdecided (Nat.le_trans hle hfirst.sublist.countP_le)
    exact ⟨fault, heq ▸ resultOf_eq_error_of_first htruths hfault' hnone⟩

/-- How a connective comes to what it comes to, for the results of its operands. -/
structure ShortCircuits (op : LogicalOp) (rs : List Outcome) (result : Outcome) : Prop where
  and_false : op = .and → (result = .ok (.boolean false) ↔ ∃ before after,
    rs = before ++ .ok (.boolean false) :: after ∧ ∀ r ∈ before, r = .ok (.boolean true))
  and_true : op = .and → (result = .ok (.boolean true) ↔ ∀ r ∈ rs, r = .ok (.boolean true))
  or_true : op = .or → (result = .ok (.boolean true) ↔ ∃ before after,
    rs = before ++ .ok (.boolean true) :: after ∧ ∀ r ∈ before, r = .ok (.boolean false))
  or_false : op = .or → (result = .ok (.boolean false) ↔ ∀ r ∈ rs, r = .ok (.boolean false))
  nor_false : op = .nor ∨ op = .not → (result = .ok (.boolean false) ↔ ∃ before after,
    rs = before ++ .ok (.boolean true) :: after ∧ ∀ r ∈ before, r = .ok (.boolean false))
  nor_true : op = .nor ∨ op = .not →
    (result = .ok (.boolean true) ↔ ∀ r ∈ rs, r = .ok (.boolean false))
  xor_false : op = .xor → (result = .ok (.boolean false) ↔
    (∃ before after, rs = before ++ .ok (.boolean true) :: after ∧ AllTruths before ∧
      count true before = 1) ∨ AllTruths rs ∧ count true rs = 0)
  xor_true : op = .xor → (result = .ok (.boolean true) ↔ AllTruths rs ∧ count true rs = 1)
  fails_iff : (∃ fault, result = .error fault) ↔ ∃ before r after, rs = before ++ r :: after ∧
    fault? op r ≠ none ∧ ¬op.Decided before
  fails_first : ∀ before r after fault, rs = before ++ r :: after → AllTruths before →
    fault? op r = some fault → ¬op.Decided before → result = .error fault

theorem map_boolean_eq_ok_iff {x : Except EvalFault Bool} {b : Bool} :
    Value.boolean <$> x = .ok (.boolean b) ↔ x = .ok b := by
  cases x <;> simp [Functor.map, Except.map]

theorem shortCircuits_resultOf (op : LogicalOp) (rs : List Outcome) :
    ShortCircuits op rs (.boolean <$> op.resultOf false rs) where
  and_false := by
    rintro rfl
    rw [map_boolean_eq_ok_iff]
    exact resultOf_eq_decision_iff rfl
  and_true := by
    rintro rfl
    rw [map_boolean_eq_ok_iff]
    exact resultOf_eq_not_decision_iff rfl
  or_true := by
    rintro rfl
    rw [map_boolean_eq_ok_iff]
    exact resultOf_eq_decision_iff rfl
  or_false := by
    rintro rfl
    rw [map_boolean_eq_ok_iff]
    exact resultOf_eq_not_decision_iff rfl
  nor_false := by
    rintro (rfl | rfl)
    all_goals
      rw [map_boolean_eq_ok_iff]
      exact resultOf_eq_decision_iff rfl
  nor_true := by
    rintro (rfl | rfl)
    all_goals
      rw [map_boolean_eq_ok_iff]
      exact resultOf_eq_not_decision_iff rfl
  xor_false := by
    rintro rfl
    rw [map_boolean_eq_ok_iff]
    exact resultOf_xor_eq_false_iff
  xor_true := by
    rintro rfl
    rw [map_boolean_eq_ok_iff]
    exact resultOf_xor_eq_true_iff
  fails_iff := by
    simp only [map_eq_error_iff]
    exact exists_resultOf_eq_error_iff
  fails_first := by
    rintro before r after fault rfl hbefore hfault hdecided
    rw [map_eq_error_iff]
    exact resultOf_eq_error_of_first hbefore hfault hdecided

end LogicalOp

namespace Expr

variable {limit level : Nat}

theorem evaluateLogical_eq_resultOf (limit : Nat) (data : Context) (op : LogicalOp)
    (seenTrue : Bool) (level : Nat) (es : List Expr) :
    evaluateLogical limit data op seenTrue level es =
      op.resultOf seenTrue (es.map (·.evaluateAt limit data level)) := by
  induction es generalizing seenTrue with
  | nil => rfl
  | cons e rest ih =>
    rw [evaluateLogical, List.map_cons, LogicalOp.resultOf, ← bind_assoc]
    cases e.evaluateAt limit data level >>= truth op with
    | error fault => rfl
    | ok b =>
      dsimp only [bind, Except.bind]
      cases op.decides? seenTrue b with
      | some result => rfl
      | none => exact ih _

/-- A connective that is not too deep comes to what the results of its operands say, each evaluated
for itself one level down, whatever came before it; with one counter for the levels too. Behind an
operand that decides, any others may stand. -/
theorem evaluateAt_shortCircuits (h : level < limit) (data : Context) (op : LogicalOp)
    (es : List Expr) (o : Options) :
    op.ShortCircuits (es.map (·.evaluateAt limit data (level + 1)))
        ((logical op es o).evaluateAt limit data level) ∧
      Balanced ((logical op es o).evaluateCounted limit data) level
        ((logical op es o).evaluateAt limit data level) ∧
      (∀ e ∈ es, Balanced (e.evaluateCounted limit data) (level + 1)
        (e.evaluateAt limit data (level + 1))) ∧
      ∀ before e after others, es = before ++ e :: after →
        op.Decider (before.map (·.evaluateAt limit data (level + 1)))
          (e.evaluateAt limit data (level + 1)) →
        (logical op (before ++ e :: others) o).evaluateAt limit data level =
          (logical op es o).evaluateAt limit data level := by
  refine ⟨?_, evaluateCounted_balanced limit data _ level,
    fun e _ => evaluateCounted_balanced limit data e (level + 1), ?_⟩
  · rw [evaluateAt_logical h, evaluateLogical_eq_resultOf]
    exact op.shortCircuits_resultOf _
  · rintro before e after others rfl ⟨hdecides, hcount⟩
    rw [evaluateAt_logical h, evaluateAt_logical h, evaluateLogical_eq_resultOf,
      evaluateLogical_eq_resultOf, List.map_append, List.map_append, List.map_cons, List.map_cons,
      hdecides]
    rw [LogicalOp.resultOf_behind (Nat.le_of_eq (op.needed_false.trans hcount.symm))]

def twoOfFour : List Expr :=
  [literal (.boolean true), literal (.boolean false), literal (.boolean true),
    literal (.integer 5)]

theorem evaluateAt_shortCircuits_twoOfFour :
    0 < 2 ∧
      LogicalOp.ShortCircuits .xor
        [.ok (.boolean true), .ok (.boolean false), .ok (.boolean true), .ok (.integer 5)]
        (.ok (.boolean false)) ∧
      Balanced ((logical .xor twoOfFour .default).evaluateCounted 2 .empty) 0
        (.ok (.boolean false)) ∧
      ∀ others,
        (logical .xor (twoOfFour.take 3 ++ others) .default).evaluateAt 2 .empty 0 =
          .ok (.boolean false) := by
  have hlimit : 0 < 2 := by decide
  obtain ⟨hspec, hcounted, -, hbehind⟩ :=
    evaluateAt_shortCircuits hlimit .empty .xor twoOfFour .default
  refine ⟨hlimit, hspec, hcounted, fun others => ?_⟩
  exact hbehind [literal (.boolean true), literal (.boolean false)] (literal (.boolean true))
    [literal (.integer 5)] others rfl ⟨rfl, rfl⟩

end Expr

end RuleLogic

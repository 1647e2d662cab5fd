import RuleLogic.Connective
import Mathlib.Data.List.Basic

/-! Connectives on truth values alone. Whether known operands settle a connective does not depend on
their order, so they may be taken out of a list of operands and put in front. -/
namespace RuleLogic.LogicalOp

/-- The result that some known operands decide, given whether one before them was true. -/
def settled? (op : LogicalOp) (seenTrue : Bool) : List Bool → Option Bool
  | [] => none
  | b :: bs =>
    match op.decides? seenTrue b with
    | some result => some result
    | none => op.settled? (seenTrue || b) bs

theorem settled?_cons (op : LogicalOp) (seenTrue b : Bool) (bs : List Bool) :
    op.settled? seenTrue (b :: bs) =
      (op.decides? seenTrue b).or (op.settled? (seenTrue || b) bs) := by
  rw [settled?]
  cases op.decides? seenTrue b <;> rfl

theorem settled?_append (op : LogicalOp) (seenTrue : Bool) (as bs : List Bool) :
    op.settled? seenTrue (as ++ bs) =
      (op.settled? seenTrue as).or (op.settled? (seenTrue || as.or) bs) := by
  induction as generalizing seenTrue with
  | nil => simp [settled?]
  | cons a as ih => simp [settled?_cons, ih, Option.or_assoc, Bool.or_assoc]

theorem settled?_swap (op : LogicalOp) (seenTrue a b : Bool) (bs : List Bool) :
    op.settled? seenTrue (a :: b :: bs) = op.settled? seenTrue (b :: a :: bs) := by
  simp only [settled?_cons, ← Option.or_assoc, Bool.or_assoc, Bool.or_comm b a]
  congr 1
  cases op <;> cases seenTrue <;> cases a <;> cases b <;> rfl

theorem settled?_perm (op : LogicalOp) (seenTrue : Bool) {as bs : List Bool} (h : as.Perm bs) :
    op.settled? seenTrue as = op.settled? seenTrue bs := by
  induction h generalizing seenTrue with
  | nil => rfl
  | cons b _ ih => rw [settled?_cons, settled?_cons, ih]
  | swap a b bs => exact op.settled?_swap seenTrue b a bs
  | trans _ _ ih₁ ih₂ => exact (ih₁ seenTrue).trans (ih₂ seenTrue)

theorem or_append (as bs : List Bool) : (as ++ bs).or = (as.or || bs.or) := by
  simp [List.or]

theorem or_perm {as bs : List Bool} (h : as.Perm bs) : as.or = bs.or := by
  simpa [List.or] using h.any_eq

theorem result_single (op : LogicalOp) (seenTrue b : Bool) :
    (op.decides? seenTrue b).getD (op.undecided (seenTrue || b)) =
      if op.negates seenTrue then !b else b := by
  cases op <;> cases seenTrue <;> cases b <;> rfl

/-! The connective that is left after some operands goes on as the first one would. -/

@[simp] theorem remaining_false (op : LogicalOp) : op.remaining false = op := by
  cases op <;> rfl

theorem decides?_remaining (op : LogicalOp) (seenTrue b : Bool) :
    (op.remaining true).decides? seenTrue b = op.decides? true b := by
  cases op <;> cases seenTrue <;> cases b <;> rfl

theorem undecided_remaining (op : LogicalOp) (seenTrue : Bool) :
    (op.remaining true).undecided seenTrue = op.undecided true := by
  cases op <;> rfl

theorem negates_remaining (op : LogicalOp) (seenTrue : Bool) :
    (op.remaining true).negates seenTrue = op.negates true := by
  cases op <;> rfl

theorem remaining_remaining (op : LogicalOp) (seenTrue : Bool) :
    (op.remaining true).remaining seenTrue = op.remaining true := by
  cases op <;> cases seenTrue <;> rfl

theorem settled?_remaining (op : LogicalOp) (seenTrue : Bool) (bs : List Bool) :
    (op.remaining true).settled? seenTrue bs = op.settled? true bs := by
  induction bs generalizing seenTrue with
  | nil => rfl
  | cons b bs ih => rw [settled?_cons, settled?_cons, decides?_remaining, ih, Bool.true_or]

/-! Around one operand, the others may be dropped when they count for nothing. -/

/-- The truth value of operands that count for nothing, for the connectives that may be dropped
around the only other operand. -/
def neutral? : LogicalOp → Option Bool
  | and => some true
  | or => some false
  | xor => some false
  | nor => none
  | not => none

theorem settled?_and_eq_none_iff {seenTrue : Bool} {bs : List Bool} :
    and.settled? seenTrue bs = none ↔ ∀ b ∈ bs, b = true := by
  induction bs generalizing seenTrue with
  | nil => simp [settled?]
  | cons b bs ih => cases b <;> simp [settled?_cons, decides?, ih]

theorem settled?_or_eq_none_iff {seenTrue : Bool} {bs : List Bool} :
    or.settled? seenTrue bs = none ↔ ∀ b ∈ bs, b = false := by
  induction bs generalizing seenTrue with
  | nil => simp [settled?]
  | cons b bs ih => cases b <;> simp [settled?_cons, decides?, ih]

theorem settled?_xor_of_forall {bs : List Bool} (h : ∀ b ∈ bs, b = false) :
    xor.settled? false bs = none := by
  induction bs with
  | nil => rfl
  | cons b bs ih =>
    obtain ⟨rfl, hbs⟩ := List.forall_mem_cons.1 h
    simp [settled?_cons, decides?, ih hbs]

theorem keeps_last_iff {op : LogicalOp} {bs : List Bool} :
    op.settled? false bs = none ∧ op.negates bs.or = false ↔
      ∃ b, op.neutral? = some b ∧ ∀ t ∈ bs, t = b := by
  cases op with
  | and => simp [neutral?, negates, settled?_and_eq_none_iff]
  | or => simp [neutral?, negates, settled?_or_eq_none_iff]
  | xor =>
    have hfalse : bs.or = false ↔ ∀ b ∈ bs, b = false := by simp [List.or]
    simp only [neutral?, negates, hfalse, Option.some.injEq, exists_eq_left']
    exact and_iff_right_of_imp settled?_xor_of_forall
  | nor => simp [neutral?, negates]
  | not => simp [neutral?, negates]

end RuleLogic.LogicalOp

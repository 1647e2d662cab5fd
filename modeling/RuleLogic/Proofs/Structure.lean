import RuleLogic.Expr
import Mathlib.Tactic.Common

/-! Expressions by their levels. Induction gives the hypothesis for every item of a collection and
every operand, the height counts levels the way the depth limits do, and the parts are the
expressions on all levels. -/
namespace RuleLogic.Expr

@[elab_as_elim, induction_eliminator]
theorem induction {motive : Expr → Prop}
    (literal : ∀ l, motive (.literal l))
    (reference : ∀ r, motive (.reference r))
    (collection : ∀ items o, (∀ e ∈ items, motive e) → motive (.collection items o))
    (comparison : ∀ op operands o, (∀ e ∈ operands, motive e) →
      motive (.comparison op operands o))
    (logical : ∀ op operands o, (∀ e ∈ operands, motive e) → motive (.logical op operands o)) :
    ∀ e, motive e
  | .literal l => literal l
  | .reference r => reference r
  | .collection items o => collection items o fun e _ =>
      induction literal reference collection comparison logical e
  | .comparison op operands o => comparison op operands o fun e _ =>
      induction literal reference collection comparison logical e
  | .logical op operands o => logical op operands o fun e _ =>
      induction literal reference collection comparison logical e

mutual

/-- The levels of an expression: one for a literal or a reference. -/
def height : Expr → Nat
  | literal _ => 1
  | reference _ => 1
  | collection items _ => heights items + 1
  | comparison _ operands _ => heights operands + 1
  | logical _ operands _ => heights operands + 1

def heights : List Expr → Nat
  | [] => 0
  | e :: rest => max e.height (heights rest)

end

theorem heights_le_iff {es : List Expr} {n : Nat} : heights es ≤ n ↔ ∀ e ∈ es, e.height ≤ n := by
  induction es with
  | nil => simp [heights]
  | cons e rest ih => rw [heights, Nat.max_le, ih, List.forall_mem_cons]

theorem height_le_heights {es : List Expr} {e : Expr} (h : e ∈ es) : e.height ≤ heights es :=
  heights_le_iff.1 (Nat.le_refl _) e h

theorem height_pos (e : Expr) : 0 < e.height := by
  cases e <;> simp [height]

variable {level limit : Nat}

theorem lt_of_fits {e : Expr} (h : level + e.height ≤ limit) : level < limit := by
  have hpos := e.height_pos
  omega

theorem fits_of_mem {e : Expr} {es : List Expr} (he : e ∈ es)
    (h : level + (heights es + 1) ≤ limit) : level + 1 + e.height ≤ limit := by
  have hle := height_le_heights he
  omega

theorem fits_of_forall_mem {es : List Expr} (hlevel : level < limit)
    (h : ∀ e ∈ es, level + 1 + e.height ≤ limit) : level + (heights es + 1) ≤ limit := by
  have hle : heights es ≤ limit - (level + 1) := by
    refine heights_le_iff.2 fun e he => ?_
    have hfit := h e he
    omega
  omega

mutual

/-- An expression and all that are inside of it. -/
def parts : Expr → List Expr
  | literal l => [literal l]
  | reference r => [reference r]
  | collection items o => collection items o :: partsEach items
  | comparison op operands o => comparison op operands o :: partsEach operands
  | logical op operands o => logical op operands o :: partsEach operands

def partsEach : List Expr → List Expr
  | [] => []
  | e :: rest => e.parts ++ partsEach rest

end

theorem mem_partsEach {p : Expr} {es : List Expr} : p ∈ partsEach es ↔ ∃ e ∈ es, p ∈ e.parts := by
  induction es with
  | nil => simp [partsEach]
  | cons e rest ih => simp [partsEach, ih]

theorem forall_partsEach {P : Expr → Prop} {es : List Expr} :
    (∀ p ∈ partsEach es, P p) ↔ ∀ e ∈ es, ∀ p ∈ e.parts, P p := by
  simp only [mem_partsEach]
  constructor
  · exact fun h e he p hp => h p ⟨e, he, hp⟩
  · rintro h p ⟨e, he, hp⟩
    exact h e he p hp

def All (P : Expr → Prop) (e : Expr) : Prop := ∀ p ∈ e.parts, P p

variable {P : Expr → Prop} {o : Options}

@[simp]
theorem all_literal {l : Literal} : (literal l).All P ↔ P (literal l) := by
  simp [All, parts]

@[simp]
theorem all_reference {r : Reference} : (reference r).All P ↔ P (reference r) := by
  simp [All, parts]

@[simp]
theorem all_collection {items : List Expr} :
    (collection items o).All P ↔ P (collection items o) ∧ ∀ e ∈ items, e.All P := by
  rw [All, parts, List.forall_mem_cons, forall_partsEach]
  rfl

@[simp]
theorem all_apply {op : Operator} {operands : List Expr} :
    (apply o op operands).All P ↔ P (apply o op operands) ∧ ∀ e ∈ operands, e.All P := by
  have hparts : (apply o op operands).parts = apply o op operands :: partsEach operands := by
    cases op <;> rfl
  rw [All, hparts, List.forall_mem_cons, forall_partsEach]
  rfl

end RuleLogic.Expr

import RuleLogic.Proofs.Operand
import RuleLogic.Proofs.Refinement

/-! Levels counted. One counter can stand for the level of every part: raised on the way into an
expression and lowered on the way out, it comes back from each part to where it was, also from one
that failed or that decided the expression around it. How many parts came before makes no
difference. -/
namespace RuleLogic

variable {α β : Type} {limit level : Nat} {data : Context}

/-- From this count on the action has this result, and it leaves the count as it was. -/
def Balanced (action : StateM Nat α) (level : Nat) (result : α) : Prop :=
  action level = (result, level)

namespace Balanced

theorem pure (a : α) : Balanced (return a) level a := rfl

theorem bind {action : StateM Nat α} {next : α → StateM Nat β} {a : α} {b : β}
    (h : Balanced action level a) (hnext : Balanced (next a) level b) :
    Balanced (action >>= next) level b := by
  show next (action level).1 (action level).2 = (b, level)
  rw [h]
  exact hnext

end Balanced

/-- The action one level deeper, where the limit allows it. -/
def deeper (limit : Nat) (refused : α) (action : StateM Nat α) : StateM Nat α := do
  if limit ≤ (← get) then return refused
  modify (· + 1)
  let result ← action
  modify (· - 1)
  return result

theorem deeper_apply (limit : Nat) (refused : α) (action : StateM Nat α) (level : Nat) :
    deeper limit refused action level =
      if limit ≤ level then (refused, level)
      else ((action (level + 1)).1, (action (level + 1)).2 - 1) := by
  show (if limit ≤ level then _ else _ : StateM Nat α) level = _
  split <;> rfl

theorem Balanced.deeper {refused a : α} {action : StateM Nat α}
    (h : Balanced action (level + 1) a) :
    Balanced (deeper limit refused action) level (if limit ≤ level then refused else a) := by
  rw [Balanced, deeper_apply, h]
  split <;> rfl

namespace Expr

mutual

def evaluateCounted (limit : Nat) (data : Context) (e : Expr) :
    StateM Nat (Except EvalFault Value) :=
  deeper limit (.error (.tooDeep limit)) <|
    match e with
    | literal l => return .ok l.toValue
    | reference r => return r.evaluate data
    | collection items _ => do
      return .list <$> (← evaluateEachCounted limit data items)
    | comparison op operands _ => do
      return (fun values => .boolean (op.holds values)) <$>
        (← evaluateEachCounted limit data operands)
    | logical op operands _ => do
      return .boolean <$> (← evaluateLogicalCounted limit data op false operands)

def evaluateEachCounted (limit : Nat) (data : Context) :
    List Expr → StateM Nat (Except EvalFault (List Value))
  | [] => return .ok []
  | e :: rest => do
    match ← evaluateCounted limit data e with
    | .ok v => return (v :: ·) <$> (← evaluateEachCounted limit data rest)
    | .error fault => return .error fault

def evaluateLogicalCounted (limit : Nat) (data : Context) (op : LogicalOp) (seenTrue : Bool) :
    List Expr → StateM Nat (Except EvalFault Bool)
  | [] => return .ok (op.undecided seenTrue)
  | e :: rest => do
    match (← evaluateCounted limit data e) >>= truth op with
    | .ok b =>
      match op.decides? seenTrue b with
      | some result => return .ok result
      | none => evaluateLogicalCounted limit data op (seenTrue || b) rest
    | .error fault => return .error fault

end

mutual

def simplifyCounted (limit : Nat) (data : Context) (e : Expr) : StateM Nat Simplified :=
  deeper limit (.rest e) <|
    match e with
    | literal l => return .value l.toValue
    | reference r =>
      match r.settle? data with
      | some v => return .value v
      | none => return .rest (reference r)
    | collection items o => do
      match ← settleEachCounted limit data items with
      | some values => return .value (.list values)
      | none => return .rest (collection items o)
    | comparison op operands o => do
      match ← settleEachCounted limit data operands with
      | some values => return .value (.boolean (op.holds values))
      | none => return .rest (comparison op operands o)
    | logical op operands o => simplifyLogicalCounted limit data o op false [] operands

def settleEachCounted (limit : Nat) (data : Context) :
    List Expr → StateM Nat (Option (List Value))
  | [] => return some []
  | e :: rest => do
    match ← simplifyCounted limit data e with
    | .value v => return (← settleEachCounted limit data rest).map (v :: ·)
    | .rest _ => return none

def simplifyLogicalCounted (limit : Nat) (data : Context) (o : Options) (op : LogicalOp)
    (seenTrue : Bool) (kept : List Expr) : List Expr → StateM Nat Simplified
  | [] => return leftOver o op seenTrue kept.reverse
  | e :: rest => do
    match ← simplifyCounted limit data e with
    | .value (.boolean b) =>
      match op.decides? seenTrue b with
      | some result => return .value (.boolean result)
      | none => simplifyLogicalCounted limit data o op (seenTrue || b) kept rest
    | .value _ => simplifyLogicalCounted limit data o op seenTrue (e :: kept) rest
    | .rest r => simplifyLogicalCounted limit data o op seenTrue (r :: kept) rest

end

theorem evaluateEachCounted_balanced {es : List Expr}
    (h : ∀ e ∈ es, Balanced (evaluateCounted limit data e) level (e.evaluateAt limit data level)) :
    Balanced (evaluateEachCounted limit data es) level (evaluateEach limit data level es) := by
  induction es with
  | nil => exact .pure _
  | cons e rest ih =>
    obtain ⟨he, hrest⟩ := List.forall_mem_cons.1 h
    rw [evaluateEachCounted, evaluateEach]
    refine he.bind ?_
    cases e.evaluateAt limit data level with
    | error fault => exact .pure _
    | ok v => exact (ih hrest).bind (.pure _)

theorem evaluateLogicalCounted_balanced {op : LogicalOp} {seenTrue : Bool} {es : List Expr}
    (h : ∀ e ∈ es, Balanced (evaluateCounted limit data e) level (e.evaluateAt limit data level)) :
    Balanced (evaluateLogicalCounted limit data op seenTrue es) level
      (evaluateLogical limit data op seenTrue level es) := by
  induction es generalizing seenTrue with
  | nil => exact .pure _
  | cons e rest ih =>
    obtain ⟨he, hrest⟩ := List.forall_mem_cons.1 h
    rw [evaluateLogicalCounted, evaluateLogical, ← bind_assoc]
    refine he.bind ?_
    cases e.evaluateAt limit data level >>= truth op with
    | error fault => exact .pure _
    | ok b =>
      dsimp only [bind, Except.bind]
      cases op.decides? seenTrue b with
      | some result => exact .pure _
      | none => exact ih hrest

theorem settleEachCounted_balanced {es : List Expr}
    (h : ∀ e ∈ es, Balanced (simplifyCounted limit data e) level (e.simplifyAt limit data level)) :
    Balanced (settleEachCounted limit data es) level (settleEach limit data level es) := by
  induction es with
  | nil => exact .pure _
  | cons e rest ih =>
    obtain ⟨he, hrest⟩ := List.forall_mem_cons.1 h
    rw [settleEachCounted, settleEach]
    refine he.bind ?_
    cases e.simplifyAt limit data level with
    | rest r => exact .pure _
    | value v => exact (ih hrest).bind (.pure _)

theorem simplifyLogicalCounted_balanced {o : Options} {op : LogicalOp} {seenTrue : Bool}
    {kept es : List Expr}
    (h : ∀ e ∈ es, Balanced (simplifyCounted limit data e) level (e.simplifyAt limit data level)) :
    Balanced (simplifyLogicalCounted limit data o op seenTrue kept es) level
      (simplifyLogical limit data o op seenTrue kept level es) := by
  induction es generalizing seenTrue kept with
  | nil => exact .pure _
  | cons e rest ih =>
    obtain ⟨he, hrest⟩ := List.forall_mem_cons.1 h
    rw [simplifyLogicalCounted, simplifyLogical]
    refine he.bind ?_
    cases e.simplifyAt limit data level with
    | rest r => exact ih hrest
    | value v =>
      cases v with
      | boolean b =>
        dsimp only
        cases op.decides? seenTrue b with
        | some result => exact .pure _
        | none => exact ih hrest
      | _ => exact ih hrest

theorem evaluateCounted_balanced (limit : Nat) (data : Context) (e : Expr) (level : Nat) :
    Balanced (evaluateCounted limit data e) level (e.evaluateAt limit data level) := by
  induction e generalizing level with
  | literal l =>
    rw [evaluateCounted, evaluateAt]
    exact .deeper (.pure _)
  | reference r =>
    rw [evaluateCounted, evaluateAt]
    exact .deeper (.pure _)
  | collection items o ih =>
    rw [evaluateCounted, evaluateAt]
    exact .deeper ((evaluateEachCounted_balanced fun e he => ih e he _).bind (.pure _))
  | comparison op es o ih =>
    rw [evaluateCounted, evaluateAt]
    exact .deeper ((evaluateEachCounted_balanced fun e he => ih e he _).bind (.pure _))
  | logical op es o ih =>
    rw [evaluateCounted, evaluateAt]
    exact .deeper ((evaluateLogicalCounted_balanced fun e he => ih e he _).bind (.pure _))

theorem simplifyCounted_balanced (limit : Nat) (data : Context) (e : Expr) (level : Nat) :
    Balanced (simplifyCounted limit data e) level (e.simplifyAt limit data level) := by
  induction e generalizing level with
  | literal l =>
    rw [simplifyCounted, simplifyAt]
    exact .deeper (.pure _)
  | reference r =>
    rw [simplifyCounted, simplifyAt]
    refine .deeper ?_
    cases r.settle? data <;> exact .pure _
  | collection items o ih =>
    rw [simplifyCounted, simplifyAt]
    refine .deeper ((settleEachCounted_balanced fun e he => ih e he _).bind ?_)
    cases settleEach limit data (level + 1) items <;> exact .pure _
  | comparison op es o ih =>
    rw [simplifyCounted, simplifyAt]
    refine .deeper ((settleEachCounted_balanced fun e he => ih e he _).bind ?_)
    cases settleEach limit data (level + 1) es <;> exact .pure _
  | logical op es o ih =>
    rw [simplifyCounted, simplifyAt]
    exact .deeper (simplifyLogicalCounted_balanced fun e he => ih e he _)

end Expr

end RuleLogic

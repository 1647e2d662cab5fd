import RuleLogic.Proofs.Soundness
import RuleLogic.Proofs.Stored

/-! What is left of an expression is no more than the expression. It is made of parts that were
there, put together by connectives that join as many operands as they may; so it can be made by the
constructors, which check that, and be stated. -/
namespace RuleLogic

open RuleLogic.Expr Operand Context

namespace Expr

variable {limit level : Nat} {c : Context} {o : Options}

def size (e : Expr) : Nat := e.parts.length

mutual

/-- The literals, references, collections and comparisons under the connectives of an expression. -/
def atoms : Expr → List Expr
  | logical _ operands _ => atomsEach operands
  | e => [e]

def atomsEach : List Expr → List Expr
  | [] => []
  | e :: rest => e.atoms ++ atomsEach rest

end

/-- What the constructors check of an expression, its parts aside, and that it has the options. -/
def WellFormed (o : Options) : Expr → Prop
  | literal _ => True
  | reference r => r.options = o
  | collection items o' => items ≠ [] ∧ o' = o
  | comparison op operands o' => operands.length = op.arity ∧ o' = o
  | logical op operands o' =>
    (if op = .not then operands.length = 1 else 2 ≤ operands.length) ∧ o' = o

def comparisonText? (symbol : String) : List String → Option String
  | [a] => some ("(" ++ a ++ " " ++ symbol ++ ")")
  | [a, b] => some ("(" ++ a ++ " " ++ symbol ++ " " ++ b ++ ")")
  | _ => none

mutual

def statement? : Expr → Option String
  | literal l => some l.text
  | reference r => some ("\x7b" ++ r.address ++ "\x7d")
  | collection items _ => do return "[" ++ ", ".intercalate (← statements? items) ++ "]"
  | comparison op operands _ => do comparisonText? op.symbol (← statements? operands)
  | logical op operands _ => do return logicalText op (← statements? operands)

def statements? : List Expr → Option (List String)
  | [] => some []
  | e :: rest => do return (← e.statement?) :: (← statements? rest)

end

def leftOverChecked (o : Options) (op : LogicalOp) (seenTrue : Bool) :
    List Expr → Except Fault Simplified
  | [] => .ok (.value (.boolean (op.undecided seenTrue)))
  | [e] => .ok (.rest (if op.negates seenTrue then negate o e else e))
  | operands => .rest <$> build o (.logical (op.remaining seenTrue)) operands

mutual

/-- As `simplifyAt`, failing where a connective cannot be built of the operands that are left. -/
def simplifyCheckedAt (limit : Nat) (data : Context) (level : Nat) (e : Expr) :
    Except Fault Simplified :=
  if limit ≤ level then .ok (.rest e)
  else match e with
    | literal l => .ok (.value l.toValue)
    | reference r =>
      match r.settle? data with
      | some v => .ok (.value v)
      | none => .ok (.rest (reference r))
    | collection items o => do
      match ← settleEachChecked limit data (level + 1) items with
      | some values => return .value (.list values)
      | none => return .rest (collection items o)
    | comparison op operands o => do
      match ← settleEachChecked limit data (level + 1) operands with
      | some values => return .value (.boolean (op.holds values))
      | none => return .rest (comparison op operands o)
    | logical op operands o => simplifyLogicalChecked limit data o op false [] (level + 1) operands

def settleEachChecked (limit : Nat) (data : Context) (level : Nat) :
    List Expr → Except Fault (Option (List Value))
  | [] => .ok (some [])
  | e :: rest => do
    match ← simplifyCheckedAt limit data level e with
    | .value v => return (← settleEachChecked limit data level rest).map (v :: ·)
    | .rest _ => return none

def simplifyLogicalChecked (limit : Nat) (data : Context) (o : Options) (op : LogicalOp)
    (seenTrue : Bool) (kept : List Expr) (level : Nat) : List Expr → Except Fault Simplified
  | [] => leftOverChecked o op seenTrue kept.reverse
  | e :: rest => do
    match ← simplifyCheckedAt limit data level e with
    | .value (.boolean b) =>
      match op.decides? seenTrue b with
      | some result => return .value (.boolean result)
      | none => simplifyLogicalChecked limit data o op (seenTrue || b) kept level rest
    | .value _ => simplifyLogicalChecked limit data o op seenTrue (e :: kept) level rest
    | .rest r => simplifyLogicalChecked limit data o op seenTrue (r :: kept) level rest

end

theorem mem_atomsEach {a : Expr} {es : List Expr} :
    a ∈ atomsEach es ↔ ∃ e ∈ es, a ∈ e.atoms := by
  induction es with
  | nil => simp [atomsEach]
  | cons e rest ih => simp [atomsEach, ih]

theorem mem_parts_self (e : Expr) : e ∈ e.parts := by
  cases e <;> simp [parts]

theorem mem_parts_of_mem_atoms {a e : Expr} (h : a ∈ e.atoms) : a ∈ e.parts := by
  induction e with
  | logical op es o ih =>
    obtain ⟨e, he, ha⟩ := mem_atomsEach.1 h
    exact List.mem_cons_of_mem _ (mem_partsEach.2 ⟨e, he, ih e he ha⟩)
  | _ =>
    obtain rfl := List.mem_singleton.1 h
    exact mem_parts_self _

theorem kept_atoms (P : Expr → Prop) : Kept fun e => ∀ a ∈ e.atoms, P a where
  operand h e he a ha := h a (mem_atomsEach.2 ⟨e, he, ha⟩)
  negate _ he a ha := by
    obtain ⟨e, hmem, ha⟩ := mem_atomsEach.1 ha
    exact he a (List.mem_singleton.1 hmem ▸ ha)
  remaining _ hleft _ _ a ha := by
    obtain ⟨e, hmem, ha⟩ := mem_atomsEach.1 ha
    exact hleft e hmem a ha

theorem length_partsEach (es : List Expr) : (partsEach es).length = (es.map size).sum := by
  induction es with
  | nil => rfl
  | cons e rest ih => rw [partsEach, List.length_append, ih, List.map_cons, List.sum_cons, size]

theorem size_logical (op : LogicalOp) (es : List Expr) (o : Options) :
    (logical op es o).size = (es.map size).sum + 1 := by
  rw [size, parts, List.length_cons, length_partsEach]

theorem size_le_of_leftOver {op : LogicalOp} {seenTrue : Bool} {es : List Expr} {r : Expr}
    (h : leftOver o op seenTrue es = .rest r) : r.size ≤ (es.map size).sum + 1 := by
  match es with
  | [] => contradiction
  | [e] =>
    obtain rfl := Simplified.rest.inj h
    split <;> simp [negate, size_logical]
  | e :: e' :: rest =>
    obtain rfl := Simplified.rest.inj h
    exact Nat.le_of_eq (size_logical ..)

theorem sizes_unknowns_le {es : List Expr}
    (h : ∀ e ∈ es, ∀ r, e.simplifyAt limit c level = .rest r → r.size ≤ e.size) :
    ((unknowns (es.map (operandAt limit c level))).map size).sum ≤ (es.map size).sum := by
  induction es with
  | nil => exact Nat.le_refl _
  | cons e rest ih =>
    have hrest := ih fun e' he' => h e' (List.mem_cons_of_mem _ he')
    rw [List.map_cons, List.map_cons, List.sum_cons]
    cases he : operandAt limit c level e with
    | known b =>
      rw [unknowns_known]
      omega
    | unknown r =>
      have hsize : r.size ≤ e.size := by
        rcases eq_or_rest_of_operandAt he with rfl | hr
        · exact Nat.le_refl _
        · exact h e (List.mem_cons_self ..) r hr
      rw [unknowns_unknown, List.map_cons, List.sum_cons]
      omega

theorem size_le_of_simplifyAt {e r : Expr} (h : e.simplifyAt limit c level = .rest r) :
    r.size ≤ e.size := by
  refine rest_induction (R := fun e r => r.size ≤ e.size) (fun _ => Nat.le_refl _) ?_ h
  intro op es o level seenTrue r ih hr
  rw [size_logical]
  exact Nat.le_trans (size_le_of_leftOver hr) (Nat.succ_le_succ (sizes_unknowns_le ih))

theorem wellFormed_apply {op : Operator} {operands : List Expr}
    (h : op.accepts operands.length = true) : WellFormed o (apply o op operands) := by
  cases op with
  | comparison op => exact ⟨eq_of_beq h, rfl⟩
  | logical op =>
    have hcount : op.accepts operands.length = true := h
    cases op <;>
      exact ⟨by simpa [LogicalOp.accepts, LogicalOp.isUnary, LogicalOp.minOperands] using hcount,
        rfl⟩

theorem all_wellFormed_of_built {n : Expr} (h : Built o n) : n.All (WellFormed o) :=
  all_of_built h (fun _ => trivial) (fun _ hr => hr) (fun _ hne => ⟨hne, rfl⟩) fun _ _ =>
    wellFormed_apply

theorem leftOverChecked_eq {op : LogicalOp} {count : Nat} {left : List Expr}
    (ha : op.accepts count = true) (hle : left.length ≤ count) (seenTrue : Bool) :
    leftOverChecked o op seenTrue left = .ok (leftOver o op seenTrue left) := by
  match left with
  | [] => rfl
  | [e] => rfl
  | e :: e' :: rest =>
    have haccepts : (Operator.logical (op.remaining seenTrue)).accepts (e :: e' :: rest).length =
        true :=
      accepts_remaining ha (by simp) hle
    have hbuild : build o (.logical (op.remaining seenTrue)) (e :: e' :: rest) = .ok _ :=
      build_eq_ok_iff.2 ⟨haccepts, rfl⟩
    exact congrArg (Simplified.rest <$> ·) hbuild

theorem settleEachChecked_eq {es : List Expr}
    (h : ∀ e ∈ es, e.simplifyCheckedAt limit c level = .ok (e.simplifyAt limit c level)) :
    settleEachChecked limit c level es = .ok (settleEach limit c level es) := by
  induction es with
  | nil => rfl
  | cons e rest ih =>
    rw [settleEachChecked, settleEach, h e (List.mem_cons_self ..),
      ih fun e' he' => h e' (List.mem_cons_of_mem _ he')]
    cases e.simplifyAt limit c level <;> rfl

theorem simplifyLogicalChecked_eq {op : LogicalOp} {count : Nat} (ha : op.accepts count = true)
    {es kept : List Expr} {seenTrue : Bool} (hle : kept.length + es.length ≤ count)
    (h : ∀ e ∈ es, e.simplifyCheckedAt limit c level = .ok (e.simplifyAt limit c level)) :
    simplifyLogicalChecked limit c o op seenTrue kept level es =
      .ok (simplifyLogical limit c o op seenTrue kept level es) := by
  induction es generalizing seenTrue kept with
  | nil =>
    rw [simplifyLogicalChecked, simplifyLogical]
    exact leftOverChecked_eq ha (by simpa using hle) seenTrue
  | cons e rest ih =>
    have hrest := fun e' he' => h e' (List.mem_cons_of_mem _ he')
    -- those kept and those still to come are never more than the operands at the start
    have hkept : ∀ r : Expr, (r :: kept).length + rest.length ≤ count := by
      intro r
      simp only [List.length_cons] at hle ⊢
      omega
    have hdropped : kept.length + rest.length ≤ count := by
      simp only [List.length_cons] at hle
      omega
    rw [simplifyLogicalChecked, simplifyLogical, h e (List.mem_cons_self ..)]
    cases e.simplifyAt limit c level with
    | rest r => exact ih (hkept r) hrest
    | value v =>
      cases v with
      | boolean b =>
        simp only [bind, Except.bind]
        cases op.decides? seenTrue b with
        | some result => rfl
        | none => exact ih hdropped hrest
      | _ => exact ih (hkept e) hrest

theorem simplifyCheckedAt_eq {n : Expr} (hn : Built o n) :
    n.simplifyCheckedAt limit c level = .ok (n.simplifyAt limit c level) := by
  induction hn generalizing level with
  | literal l =>
    rw [simplifyCheckedAt, simplifyAt]
    split <;> rfl
  | @reference address r hr =>
    rw [simplifyCheckedAt, simplifyAt]
    split
    · rfl
    · cases r.settle? c <;> rfl
  | @collection items e _ he ih =>
    obtain ⟨-, rfl⟩ := collect_eq_ok_iff.1 he
    rw [simplifyCheckedAt, simplifyAt]
    split
    · rfl
    · rw [settleEachChecked_eq fun e he => ih e he]
      cases settleEach limit c (level + 1) items <;> rfl
  | @operator op operands e _ he ih =>
    obtain ⟨ha, rfl⟩ := build_eq_ok_iff.1 he
    cases op with
    | comparison op =>
      rw [apply, simplifyCheckedAt, simplifyAt]
      split
      · rfl
      · rw [settleEachChecked_eq fun e he => ih e he]
        cases settleEach limit c (level + 1) operands <;> rfl
    | logical op =>
      rw [apply, simplifyCheckedAt, simplifyAt]
      split
      · rfl
      · exact simplifyLogicalChecked_eq ha (by simp) fun e he => ih e he
  | negation _ ih =>
    rw [negate, simplifyCheckedAt, simplifyAt]
    split
    · rfl
    · have hone : LogicalOp.not.accepts 1 = true := rfl
      exact simplifyLogicalChecked_eq hone (by simp) (List.forall_mem_singleton.2 ih)

theorem length_statements (es : List Expr) : (statements es).length = es.length := by
  induction es with
  | nil => rfl
  | cons e rest ih => rw [statements, List.length_cons, List.length_cons, ih]

theorem statements?_eq {es : List Expr} (h : ∀ e ∈ es, e.statement? = some e.statement) :
    statements? es = some (statements es) := by
  induction es with
  | nil => rfl
  | cons e rest ih =>
    rw [statements?, h e (List.mem_cons_self ..),
      ih fun e' he' => h e' (List.mem_cons_of_mem _ he')]
    rfl

theorem comparisonText?_eq (symbol : String) {texts : List String}
    (h : texts.length = 1 ∨ texts.length = 2) :
    comparisonText? symbol texts = some (comparisonText symbol texts) := by
  match texts with
  | [a] => rfl
  | [a, b] => rfl
  | [] => simp at h
  | _ :: _ :: _ :: _ => simp at h

theorem arity_eq (op : ComparisonOp) : op.arity = 1 ∨ op.arity = 2 := by
  cases op <;> simp [ComparisonOp.arity]

theorem statement?_eq {r : Expr} (h : r.All (WellFormed o)) :
    r.statement? = some r.statement := by
  induction r with
  | literal l => rfl
  | reference r => rfl
  | collection items o' ih =>
    have hitems := statements?_eq fun e he => ih e he ((all_collection.1 h).2 e he)
    rw [statement?, hitems]
    rfl
  | comparison op es o' ih =>
    have hall : (apply o' (.comparison op) es).All (WellFormed o) := h
    have hes := statements?_eq fun e he => ih e he ((all_apply.1 hall).2 e he)
    obtain ⟨harity, -⟩ : es.length = op.arity ∧ o' = o := (all_apply.1 hall).1
    have hlength : (statements es).length = 1 ∨ (statements es).length = 2 := by
      rw [length_statements, harity]
      exact arity_eq op
    rw [statement?, hes]
    exact comparisonText?_eq op.symbol hlength
  | logical op es o' ih =>
    have hall : (apply o' (.logical op) es).All (WellFormed o) := h
    have hes := statements?_eq fun e he => ih e he ((all_apply.1 hall).2 e he)
    rw [statement?, hes]
    rfl

/-- What is left of an expression in parts that it had, none of them more than it was. -/
structure Shrinks (o : Options) (n r : Expr) : Prop where
  built : Built o r
  wellFormed : r.All (WellFormed o)
  atoms : ∀ a ∈ r.atoms, a ∈ n.parts
  size_le : r.size ≤ n.size
  height_le : r.height ≤ n.height
  stated : r.statement? = some r.statement

def simplifyChecked (limit : Nat) (data : Context) (e : Expr) : Except Fault Simplified :=
  e.simplifyCheckedAt limit data 0

/-- Simplifying leaves well-formed expressions of what was there, and the constructors that put them
together never fail. -/
theorem simplify_shrinks {n : Expr} (hn : Built o n) (limit : Nat) (c : Context) :
    n.simplifyChecked limit c = .ok (n.simplify limit c) ∧
      ∀ r, n.simplify limit c = .rest r → Shrinks o n r := by
  refine ⟨simplifyCheckedAt_eq hn, fun r hr => ?_⟩
  have hbuilt : Built o r := (kept_built o).rest hr hn
  have hwell := all_wellFormed_of_built hbuilt
  have hatoms : ∀ a ∈ r.atoms, a ∈ n.atoms := (kept_atoms (· ∈ n.atoms)).rest hr fun _ ha => ha
  exact {
    built := hbuilt
    wellFormed := hwell
    atoms := fun a ha => mem_parts_of_mem_atoms (hatoms a ha)
    size_le := size_le_of_simplifyAt hr
    height_le := height_le_of_simplifyAt hr
    stated := statement?_eq hwell }

def neitherOne : Expr := logical .nor [lookup "b", negate .default (lookup "c")] .default

theorem simplify_shrinks_exactlyOne :
    Built .default exactlyOne ∧ exactlyOne.simplify 3 knownA = .rest neitherOne ∧
      exactlyOne.simplifyChecked 3 knownA = .ok (.rest neitherOne) ∧
      Shrinks .default exactlyOne neitherOne := by
  have ha : Reference.ofAddress .default "a" = .ok ⟨"a", "a", .undefined, .default⟩ := rfl
  have hb : Reference.ofAddress .default "b" = .ok ⟨"b", "b", .undefined, .default⟩ := rfl
  have hc : Reference.ofAddress .default "c" = .ok ⟨"c", "c", .undefined, .default⟩ := rfl
  have hxor : build .default (.logical .xor)
      [lookup "a", lookup "b", negate .default (lookup "c")] = .ok exactlyOne := rfl
  have hbuilt : Built .default exactlyOne :=
    .operator (List.forall_mem_cons.2 ⟨.reference ha, List.forall_mem_cons.2
      ⟨.reference hb, List.forall_mem_singleton.2 (.negation (.reference hc))⟩⟩) hxor
  have hrest : exactlyOne.simplify 3 knownA = .rest neitherOne := rfl
  obtain ⟨hchecked, hshrinks⟩ := simplify_shrinks hbuilt 3 knownA
  exact ⟨hbuilt, hrest, hrest ▸ hchecked, hshrinks neitherOne hrest⟩

end Expr

end RuleLogic

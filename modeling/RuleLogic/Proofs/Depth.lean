import RuleLogic.Proofs.Counter
import RuleLogic.Proofs.Faults
import RuleLogic.Proofs.Levels
import RuleLogic.Proofs.Rereading

/-! Depth limits. A document is read to an expression with as many levels as it has itself, so one
that is read within a limit is evaluated within it, and a higher limit changes nothing. -/
namespace RuleLogic

variable {limit limit' level level' : Nat} {data : Context}

namespace Expr

theorem ne_tooDeep_of_evaluateAt {e : Expr} (h : level + e.height ≤ limit) {fault : EvalFault}
    (hf : e.evaluateAt limit data level = .error fault) (n : Nat) : fault ≠ .tooDeep n := by
  induction e generalizing level with
  | literal l =>
    rw [evaluateAt_literal (lt_of_fits h)] at hf
    contradiction
  | reference r =>
    rw [evaluateAt_reference (lt_of_fits h)] at hf
    obtain ⟨p, rfl⟩ | ⟨e, rfl⟩ := Reference.fault_of_evaluate hf <;> nofun
  | collection items o ih =>
    rw [evaluateAt_collection (lt_of_fits h), map_eq_error_iff] at hf
    obtain ⟨e, he, hfault⟩ := exists_of_evaluateEach hf
    exact ih e he (fits_of_mem he h) hfault
  | comparison op es o ih =>
    rw [evaluateAt_comparison (lt_of_fits h), map_eq_error_iff] at hf
    obtain ⟨e, he, hfault⟩ := exists_of_evaluateEach hf
    exact ih e he (fits_of_mem he h) hfault
  | logical op es o ih =>
    rw [evaluateAt_logical (lt_of_fits h), map_eq_error_iff] at hf
    obtain rfl | ⟨e, he, hfault⟩ := exists_of_evaluateLogical hf
    · nofun
    · exact ih e he (fits_of_mem he h) hfault

/-! Evaluating under one limit and under another. -/

theorem evaluateEach_congr {es : List Expr}
    (h : ∀ e ∈ es, e.evaluateAt limit data level = e.evaluateAt limit' data level') :
    evaluateEach limit data level es = evaluateEach limit' data level' es := by
  induction es with
  | nil => rfl
  | cons e rest ih =>
    obtain ⟨he, hrest⟩ := List.forall_mem_cons.1 h
    rw [evaluateEach, evaluateEach, he, ih hrest]

theorem evaluateLogical_congr {op : LogicalOp} {seenTrue : Bool} {es : List Expr}
    (h : ∀ e ∈ es, e.evaluateAt limit data level = e.evaluateAt limit' data level') :
    evaluateLogical limit data op seenTrue level es =
      evaluateLogical limit' data op seenTrue level' es := by
  induction es generalizing seenTrue with
  | nil => rfl
  | cons e rest ih =>
    obtain ⟨he, hrest⟩ := List.forall_mem_cons.1 h
    have hgo : ∀ b, evaluateLogical limit data op b level rest =
        evaluateLogical limit' data op b level' rest := fun b => ih hrest
    simp only [evaluateLogical, he, hgo]

theorem evaluateAt_level {e : Expr} (h : level + e.height ≤ limit)
    (h' : level' + e.height ≤ limit') :
    e.evaluateAt limit data level = e.evaluateAt limit' data level' := by
  induction e generalizing level level' with
  | literal l => rw [evaluateAt_literal (lt_of_fits h), evaluateAt_literal (lt_of_fits h')]
  | reference r => rw [evaluateAt_reference (lt_of_fits h), evaluateAt_reference (lt_of_fits h')]
  | collection items o ih =>
    rw [evaluateAt_collection (lt_of_fits h), evaluateAt_collection (lt_of_fits h'),
      evaluateEach_congr fun e he => ih e he (fits_of_mem he h) (fits_of_mem he h')]
  | comparison op es o ih =>
    rw [evaluateAt_comparison (lt_of_fits h), evaluateAt_comparison (lt_of_fits h'),
      evaluateEach_congr fun e he => ih e he (fits_of_mem he h) (fits_of_mem he h')]
  | logical op es o ih =>
    rw [evaluateAt_logical (lt_of_fits h), evaluateAt_logical (lt_of_fits h'),
      evaluateLogical_congr fun e he => ih e he (fits_of_mem he h) (fits_of_mem he h')]

end Expr

namespace Json

mutual

def height : Json → Nat
  | array items => heights items + 1
  | _ => 1

def heights : List Json → Nat
  | [] => 0
  | x :: rest => max x.height (heights rest)

end

theorem heights_le_iff {xs : List Json} {n : Nat} : heights xs ≤ n ↔ ∀ x ∈ xs, x.height ≤ n := by
  induction xs with
  | nil => simp [heights]
  | cons x rest ih => rw [heights, Nat.max_le, ih, List.forall_mem_cons]

theorem height_pos (x : Json) : 0 < x.height := by
  cases x <;> simp [height]

end Json

namespace Options

variable {o : Options} {depth : Nat} {x : Json} {e : Expr}

theorem height_source (o : Options) (head : Json) (rest : List Json) :
    ((o.headOf head rest).source head).height = head.height := by
  cases hh : o.headOf head rest with
  | escaped s =>
    obtain ⟨t, rfl⟩ := exists_of_headOf_escaped hh
    rfl
  | _ => rfl

theorem heights_eq_of_forall₂ {xs : List Json} {es : List Expr}
    (h : List.Forall₂ (fun x e => e.height = x.height) xs es) :
    Expr.heights es = Json.heights xs := by
  induction h with
  | nil => rfl
  | cons hxe _ ih => rw [Expr.heights, Json.heights, hxe, ih]

theorem height_eq_of_readAt (h : o.readAt depth x = .ok e) : e.height = x.height := by
  refine readAt_induction (motive := fun _ x e => e.height = x.height) ?boolean ?number ?string
    ?operator ?collection h
  case boolean => exact fun _ b _ => rfl
  case number => exact fun _ n _ => rfl
  case string => exact fun _ s e _ h => height_of_readString h
  case operator =>
    intro _ head rest op operands _ hop _ hoperands
    obtain ⟨hrest, s, rfl, -⟩ := exists_of_headOf_operator hop
    obtain ⟨second, rest, rfl⟩ := List.exists_cons_of_ne_nil hrest
    -- the head is as high as a scalar, and no operand is lower
    have hpos : Json.height (.string s) ≤ Json.heights (second :: rest) :=
      Nat.le_trans second.height_pos (Nat.le_max_left ..)
    have hheights : Json.heights (.string s :: second :: rest) = Json.heights (second :: rest) :=
      Nat.max_eq_right hpos
    rw [Expr.height_apply, heights_eq_of_forall₂ hoperands, Json.height, hheights]
  case collection =>
    intro _ head rest first items _ _ _ hfirst hitems
    rw [Expr.height, Json.height, Expr.heights, Json.heights, hfirst, height_source,
      heights_eq_of_forall₂ hitems]

end Options

theorem EvalFault.code_ne_of_ne_tooDeep {fault : EvalFault} (h : ∀ n, fault ≠ .tooDeep n) :
    fault.diagnostic.code.text ≠ "IL0103" := by
  cases fault with
  | notBoolean op =>
    show Code.text ⟨100⟩ ≠ "IL0103"
    decide
  | conversion e =>
    show Code.text ⟨101⟩ ≠ "IL0103"
    decide
  | unsettledPath n path =>
    show Code.text ⟨102⟩ ≠ "IL0103"
    decide
  | tooDeep n => exact absurd rfl (h n)

namespace Engine

/-- What an engine reads has the levels of its document, within the limit. So the engine never
refuses to evaluate it for its depth, and under every limit that it fits it evaluates and simplifies
to the same, with one counter for all its levels too. -/
theorem depth_of_read (engine : Engine) {x : Json} {n : Expr} (h : engine.read x = .ok n) :
    n.height = x.height ∧ n.height ≤ engine.options.maxDepth ∧
      (∀ context failure, engine.evaluate x context = .error failure →
        failure.diagnostic.code.text ≠ "IL0103") ∧
      ∀ limit limit' data, n.height ≤ limit → n.height ≤ limit' →
        n.evaluate limit data = n.evaluate limit' data ∧
          n.simplify limit data = n.simplify limit' data ∧
          Balanced (n.evaluateCounted limit data) 0 (n.evaluate limit' data) ∧
          Balanced (n.simplifyCounted limit data) 0 (n.simplify limit' data) := by
  have hread : engine.options.readAt 0 x = .ok n := read_eq_ok_iff.1 h
  have hheight : 0 + n.height ≤ engine.options.maxDepth := Options.height_of_readAt hread
  refine ⟨Options.height_eq_of_readAt hread, by omega, ?_, ?_⟩
  · intro context failure hfailure
    cases hv : n.evaluate engine.options.maxDepth (contextOf context) with
    | ok v => simp [evaluate, h, hv, bind, Except.bind] at hfailure
    | error fault =>
      obtain rfl : .evaluation fault = failure := by
        simpa [evaluate, h, hv, bind, Except.bind] using hfailure
      exact EvalFault.code_ne_of_ne_tooDeep (Expr.ne_tooDeep_of_evaluateAt hheight hv)
  · intro limit limit' data hl hl'
    have hfits : 0 + n.height ≤ limit := by omega
    have hfits' : 0 + n.height ≤ limit' := by omega
    have hevaluate : n.evaluate limit data = n.evaluate limit' data :=
      Expr.evaluateAt_level hfits hfits'
    have hsimplify : n.simplify limit data = n.simplify limit' data :=
      Expr.simplifyAt_level hfits hfits'
    refine ⟨hevaluate, hsimplify, ?_, ?_⟩
    · rw [← hevaluate]
      exact n.evaluateCounted_balanced limit data 0
    · rw [← hsimplify]
      exact n.simplifyCounted_balanced limit data 0

def shallow : Engine := ⟨{ Options.marked with maxDepth := 3 }⟩

/-- `["&&", ["==", "<n>", 1], ["!!&&", true]]` -/
def wide : Json :=
  .array
    [.string "&&", .array [.string "==", .string "<n>", .number (.integer 1)],
      .array [.string "!!&&", .boolean true]]

def wideRule : Expr :=
  .logical .and
    [.comparison .equal
        [.reference ⟨"n", "n", .undefined, shallow.options⟩, .literal (.integer 1)]
        shallow.options,
      .collection [.literal (.string "&&"), .literal (.boolean true)] shallow.options]
    shallow.options

theorem depth_of_read_wideRule :
    shallow.read wide = .ok wideRule ∧ wideRule.height = wide.height ∧ wide.height = 3 ∧
      (∀ context failure, shallow.evaluate wide context = .error failure →
        failure.diagnostic.code.text ≠ "IL0103") ∧
      ∀ data, wideRule.evaluate 3 data = wideRule.evaluate 128 data ∧
        Balanced (wideRule.evaluateCounted 3 data) 0 (wideRule.evaluate 128 data) := by
  have hread : shallow.read wide = .ok wideRule := rfl
  obtain ⟨hheight, -, hcode, hlimits⟩ := depth_of_read shallow hread
  refine ⟨hread, hheight, by decide, hcode, fun data => ?_⟩
  obtain ⟨hevaluate, -, hcounted, -⟩ := hlimits 3 128 data (by decide) (by decide)
  exact ⟨hevaluate, hcounted⟩

end Engine

end RuleLogic

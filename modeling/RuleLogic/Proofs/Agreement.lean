import RuleLogic.Proofs.Extension
import RuleLogic.Proofs.Operand
import RuleLogic.Proofs.Refinement

/-! Simplifying where nothing is unknown. Both ways of reading an expression go through its parts in
the same order and end at the same operand, so simplifying comes to the value that evaluating has.
-/
namespace RuleLogic

variable {limit level : Nat} {data : Context}

/-- The path leads to a value that need not be left alone, and the cast takes it. -/
def Reference.Settled (data : Context) (r : Reference) : Prop :=
  ∃ found v w, data.resolve r.path = .ok ⟨found, some v⟩ ∧ r.isIgnored found = false ∧
    v.cast r.type = .ok w

theorem Reference.Settled.exists_settle? {r : Reference} (h : r.Settled data) :
    ∃ w, r.settle? data = some w := by
  obtain ⟨found, v, w, hr, hi, hc⟩ := h
  exact ⟨w, settle?_eq_some_iff.2 ⟨found, v, hr, hi, hc⟩⟩

namespace Expr

open Operand

/-- All references inside are settled. -/
def Known (data : Context) (e : Expr) : Prop := ∀ r, reference r ∈ e.parts → r.Settled data

namespace Known

theorem of_reference {r : Reference} (h : (reference r).Known data) : r.Settled data :=
  h r (by simp [parts])

theorem of_parts {e : Expr} {es : List Expr} (hparts : e.parts = e :: partsEach es)
    (h : e.Known data) : ∀ e' ∈ es, e'.Known data := by
  intro e' he' r hr
  refine h r ?_
  rw [hparts]
  exact List.mem_cons_of_mem _ (mem_partsEach.2 ⟨e', he', hr⟩)

end Known

def Agrees (limit : Nat) (data : Context) (level : Nat) (e : Expr) : Prop :=
  ∀ v, e.evaluateAt limit data level = .ok v → e.simplifyAt limit data level = .value v

theorem settleEach_of_evaluateEach {es : List Expr} {vs : List Value}
    (h : ∀ e ∈ es, e.Agrees limit data level) (hvs : evaluateEach limit data level es = .ok vs) :
    settleEach limit data level es = some vs := by
  induction es generalizing vs with
  | nil => exact congrArg some (Except.ok.inj hvs)
  | cons e rest ih =>
    obtain ⟨he, hrest⟩ := List.forall_mem_cons.1 h
    obtain ⟨v, ws, hv, hws, rfl⟩ := evaluateEach_cons_eq_ok_iff.1 hvs
    exact settleEach_cons_eq_some_iff.2 ⟨v, ws, he v hv, ih hrest hws, rfl⟩

theorem simplifyLogical_of_evaluateLogical {op : LogicalOp} {seenTrue b : Bool} {es : List Expr}
    (h : ∀ e ∈ es, e.Agrees limit data level)
    (hb : evaluateLogical limit data op seenTrue level es = .ok b) (o : Options) :
    simplifyLogical limit data o op seenTrue [] level es = .value (.boolean b) := by
  induction es generalizing seenTrue with
  | nil =>
    rw [evaluateLogical] at hb
    rw [simplifyLogical, List.reverse_nil, leftOver, Except.ok.inj hb]
  | cons e rest ih =>
    obtain ⟨he, hrest⟩ := List.forall_mem_cons.1 h
    obtain ⟨t, ht⟩ := exists_boolean_of_evaluateLogical hb
    -- no operand is kept, and those behind the one that decides are read by neither
    have hknown : e.operandAt limit data level = known t := by
      rw [operandAt, he _ ht]
      rfl
    rw [evaluateLogical_cons ht] at hb
    rw [simplifyLogical_cons, hknown]
    cases hd : op.decides? seenTrue t with
    | some result =>
      rw [hd] at hb
      simp only [hd, Except.ok.inj hb]
    | none =>
      rw [hd] at hb
      simp only [hd, ih hrest hb]

theorem agrees_of_known {e : Expr} (h : e.Known data) : e.Agrees limit data level := by
  induction e generalizing level with
  | literal l =>
    intro v hv
    have hl := lt_of_evaluateAt hv
    rw [evaluateAt_literal hl] at hv
    rw [simplifyAt_literal hl, Except.ok.inj hv]
  | reference r =>
    intro v hv
    have hl := lt_of_evaluateAt hv
    obtain ⟨w, hw⟩ := h.of_reference.exists_settle?
    rw [evaluateAt_reference hl, Reference.evaluate_of_settle? hw] at hv
    rw [simplifyAt_reference hl, hw, Except.ok.inj hv]
  | collection items o ih =>
    intro v hv
    have hl := lt_of_evaluateAt hv
    rw [evaluateAt_collection hl] at hv
    obtain ⟨vs, hvs, rfl⟩ := map_eq_ok_iff.1 hv
    have hall : ∀ e ∈ items, e.Agrees limit data (level + 1) :=
      fun e he => ih e he (h.of_parts rfl e he)
    rw [simplifyAt_collection hl, settleEach_of_evaluateEach hall hvs]
  | comparison op es o ih =>
    intro v hv
    have hl := lt_of_evaluateAt hv
    rw [evaluateAt_comparison hl] at hv
    obtain ⟨vs, hvs, rfl⟩ := map_eq_ok_iff.1 hv
    have hall : ∀ e ∈ es, e.Agrees limit data (level + 1) :=
      fun e he => ih e he (h.of_parts rfl e he)
    rw [simplifyAt_comparison hl, settleEach_of_evaluateEach hall hvs]
  | logical op es o ih =>
    intro v hv
    have hl := lt_of_evaluateAt hv
    rw [evaluateAt_logical hl] at hv
    obtain ⟨b, hb, rfl⟩ := map_eq_ok_iff.1 hv
    have hall : ∀ e ∈ es, e.Agrees limit data (level + 1) :=
      fun e he => ih e he (h.of_parts rfl e he)
    rw [simplifyAt, if_neg (Nat.not_le.2 hl)]
    exact simplifyLogical_of_evaluateLogical hall hb o

/-- An expression of which all references are settled is simplified to its value. -/
theorem simplify_of_evaluate (limit : Nat) {data : Context} {e : Expr} (h : e.Known data)
    {v : Value} (hv : e.evaluate limit data = .ok v) : e.simplify limit data = .value v :=
  agrees_of_known h v hv

def keyed : Reference := ⟨"\x7bkey\x7d.(Number)", "\x7bkey\x7d", .number, .default⟩

def keyedData : Context :=
  (Context.knownA.insert "key" (.string "n")).insert "n" (.string "5")

/-- `["XOR", ["OR", "$a", 5], ["==", "${key}.(Number)", 6]]` -/
def oneOf : Expr :=
  logical .xor
    [logical .or [lookup "a", literal (.integer 5)] .default,
      comparison .equal [reference keyed, literal (.integer 6)] .default]
    .default

theorem known_oneOf : oneOf.Known keyedData := by
  have ha : (Reference.mk "a" "a" .undefined .default).Settled keyedData :=
    ⟨"a", .boolean true, .boolean true, rfl, rfl, rfl⟩
  have hkeyed : keyed.Settled keyedData := ⟨"n", .string "5", .integer 5, rfl, rfl, rfl⟩
  intro r hr
  have hrefs : r = ⟨"a", "a", .undefined, .default⟩ ∨ r = keyed := by
    simpa [oneOf, parts, partsEach, lookup] using hr
  rcases hrefs with rfl | rfl
  · exact ha
  · exact hkeyed

theorem simplify_oneOf :
    oneOf.Known keyedData ∧ oneOf.evaluate 3 keyedData = .ok (.boolean true) ∧
      oneOf.simplify 3 keyedData = .value (.boolean true) :=
  ⟨known_oneOf, rfl, simplify_of_evaluate 3 known_oneOf rfl⟩

end Expr

end RuleLogic

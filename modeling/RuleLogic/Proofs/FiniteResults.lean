import RuleLogic.Proofs.Addressing
import RuleLogic.Proofs.Casting
import RuleLogic.Proofs.Export
import RuleLogic.Proofs.Refinement
import RuleLogic.Proofs.Stored

/-! Results without infinities. Doubles come into a value from a document or from a cast, and all of
these are finite; so a result is exported with null for what is missing and for nothing else. -/
namespace RuleLogic

namespace Value

@[elab_as_elim]
theorem induction {motive : Value → Prop}
    (nil : motive .nil)
    (boolean : ∀ b, motive (.boolean b))
    (integer : ∀ n, motive (.integer n))
    (float : ∀ x, motive (.float x))
    (string : ∀ s, motive (.string s))
    (list : ∀ items, (∀ v ∈ items, motive v) → motive (.list items)) :
    ∀ v, motive v
  | .nil => nil
  | .boolean b => boolean b
  | .integer n => integer n
  | .float x => float x
  | .string s => string s
  | .list items => list items fun v _ => induction nil boolean integer float string list v

inductive At : Value → List Step → Value → Prop
  | root (v : Value) : At v [] v
  | item {items : List Value} {index : Nat} {v w : Value} {steps : List Step} :
      items[index]? = some v → At v steps w → At (.list items) (.item index :: steps) w

/-- No double in a value, however deep in lists, is infinite or no number. -/
def Finite (v : Value) : Prop := ∀ steps x, v.At steps (.float x) → x.isFinite = true

theorem finite_list_iff {items : List Value} : (list items).Finite ↔ ∀ v ∈ items, v.Finite := by
  constructor
  · intro h v hv steps x hx
    obtain ⟨index, hindex⟩ := List.getElem?_of_mem hv
    exact h _ x (.item hindex hx)
  · rintro h steps x (_ | ⟨hindex, hx⟩)
    exact h _ (List.mem_of_getElem? hindex) _ x hx

theorem finite_float_iff {x : Double} : (float x).Finite ↔ x.isFinite = true := by
  constructor
  · exact fun h => h [] x (.root _)
  · rintro h steps y ⟨⟩
    exact h

@[simp] theorem finite_nil : nil.Finite := by rintro steps x ⟨⟩

@[simp] theorem finite_boolean (b : Bool) : (boolean b).Finite := by rintro steps x ⟨⟩

@[simp] theorem finite_integer (n : Int64) : (integer n).Finite := by rintro steps x ⟨⟩

@[simp] theorem finite_string (s : String) : (string s).Finite := by rintro steps x ⟨⟩

theorem toJsons_eq_map (items : List Value) : toJsons items = items.map toJson := by
  induction items with
  | nil => rfl
  | cons v rest ih => rw [toJsons, ih, List.map_cons]

theorem toJson_at_null_iff {v : Value} (h : v.Finite) {steps : List Step} :
    v.toJson.At steps .null ↔ v.At steps .nil := by
  induction v using Value.induction generalizing steps with
  | nil => constructor <;> (rintro ⟨⟩; exact .root _)
  | boolean b => constructor <;> rintro ⟨⟩
  | integer n => constructor <;> rintro ⟨⟩
  | string s => constructor <;> rintro ⟨⟩
  | float x =>
    rw [toJson_float (finite_float_iff.1 h)]
    constructor <;> rintro ⟨⟩
  | list items ih =>
    rw [finite_list_iff] at h
    rw [toJson, toJsons_eq_map]
    constructor
    · rintro (_ | _ | @⟨_, index, x, _, rest, hindex, hx⟩)
      rw [List.getElem?_map, Option.map_eq_some_iff] at hindex
      obtain ⟨v, hv, rfl⟩ := hindex
      have hmem := List.mem_of_getElem? hv
      exact .item hv ((ih v hmem (h v hmem)).1 hx)
    · rintro (_ | @⟨_, index, v, _, rest, hindex, hv⟩)
      have hmem := List.mem_of_getElem? hindex
      have hmap : (items.map toJson)[index]? = some v.toJson := by simp [hindex]
      exact .item hmap ((ih v hmem (h v hmem)).2 hv)

end Value

namespace Literal

theorem finite_toValue {l : Literal} (h : ∀ x, l = float x → x.isFinite = true) :
    l.toValue.Finite := by
  cases l with
  | float x => exact Value.finite_float_iff.2 (h x rfl)
  | boolean b => exact Value.finite_boolean b
  | integer n => exact Value.finite_integer n
  | string s => exact Value.finite_string s

end Literal

theorem Value.finite_of_ofScalar? {data : Json} {v : Value} (h : ofScalar? data = some v) :
    v.Finite := by
  rw [← Literal.ofJson?_toValue, Option.map_eq_some_iff] at h
  obtain ⟨l, hl, rfl⟩ := h
  refine Literal.finite_toValue ?_
  rintro x rfl
  cases data with
  | number n => exact Literal.isFinite_of_ofNumber (Option.some.inj hl)
  | _ => cases hl

theorem DataType.Admits.finite {target : DataType} {w : Value} (h : target.Admits w) :
    w.Finite := by
  cases h with
  | numberInteger n => exact Value.finite_integer n
  | numberFloat hx => exact Value.finite_float_iff.2 hx
  | integer n => exact Value.finite_integer n
  | float hx => exact Value.finite_float_iff.2 hx
  | string s => exact Value.finite_string s
  | boolean b => exact Value.finite_boolean b

theorem Value.finite_of_cast {v w : Value} {target : DataType} (hv : v.Finite)
    (h : v.cast target = .ok w) : w.Finite := by
  by_cases hnil : v = .nil
  · subst hnil
    exact Except.ok.inj h ▸ Value.finite_nil
  · by_cases htarget : target = .undefined
    · rw [htarget, cast_undefined] at h
      exact Except.ok.inj h ▸ hv
    · exact (admits_of_cast hnil htarget h).finite

namespace Context

def Finite (c : Context) : Prop := ∀ path v, c.get? path = some v → v.Finite

theorem finite_contextOf (c : Json) : (Engine.contextOf c).Finite := by
  intro path v hv
  rw [Engine.contextOf] at hv
  cases hc : ofJson? c with
  | none => simp [hc] at hv
  | some f =>
    rw [hc] at hv
    obtain ⟨x, hx⟩ := scalars_of_ofJson? hc _ (Entries.mem_of_lookup hv)
    exact Value.finite_of_ofScalar? hx

end Context

variable {limit level : Nat} {data : Context}

theorem Reference.finite_of_evaluate {r : Reference} {v : Value} (hdata : data.Finite)
    (h : r.evaluate data = .ok v) : v.Finite := by
  unfold evaluate at h
  split at h
  · contradiction
  · exact Except.ok.inj h ▸ Value.finite_nil
  · rename_i found w hr
    split at h
    · rename_i w' hcast
      have hw := hdata _ _ (Context.found_of_resolveWithin hr).2
      exact Except.ok.inj h ▸ Value.finite_of_cast hw hcast
    · contradiction

theorem Reference.finite_of_settle? {r : Reference} {v : Value} (hdata : data.Finite)
    (h : r.settle? data = some v) : v.Finite := by
  obtain ⟨found, w, hr, -, hcast⟩ := settle?_eq_some_iff.1 h
  exact Value.finite_of_cast (hdata _ _ (Context.found_of_resolveWithin hr).2) hcast

namespace Expr

def FiniteLiteral : Expr → Prop
  | literal (.float x) => x.isFinite = true
  | _ => True

theorem finite_toValue {l : Literal} (h : FiniteLiteral (literal l)) : l.toValue.Finite := by
  refine Literal.finite_toValue ?_
  rintro x rfl
  exact h

theorem exists_of_mem_evaluateEach {es : List Expr} {vs : List Value}
    (h : evaluateEach limit data level es = .ok vs) {v : Value} (hv : v ∈ vs) :
    ∃ e ∈ es, e.evaluateAt limit data level = .ok v := by
  induction es generalizing vs with
  | nil =>
    obtain rfl := Except.ok.inj h
    contradiction
  | cons e rest ih =>
    obtain ⟨w, ws, hw, hws, rfl⟩ := evaluateEach_cons_eq_ok_iff.1 h
    rcases List.mem_cons.1 hv with rfl | hv
    · exact ⟨e, List.mem_cons_self .., hw⟩
    · obtain ⟨e', he', hvalue⟩ := ih hws hv
      exact ⟨e', List.mem_cons_of_mem _ he', hvalue⟩

theorem exists_of_mem_settleEach {es : List Expr} {vs : List Value}
    (h : settleEach limit data level es = some vs) {v : Value} (hv : v ∈ vs) :
    ∃ e ∈ es, e.simplifyAt limit data level = .value v := by
  induction es generalizing vs with
  | nil =>
    obtain rfl := Option.some.inj h
    contradiction
  | cons e rest ih =>
    obtain ⟨w, ws, hw, hws, rfl⟩ := settleEach_cons_eq_some_iff.1 h
    rcases List.mem_cons.1 hv with rfl | hv
    · exact ⟨e, List.mem_cons_self .., hw⟩
    · obtain ⟨e', he', hvalue⟩ := ih hws hv
      exact ⟨e', List.mem_cons_of_mem _ he', hvalue⟩

theorem finite_of_evaluateAt (hdata : data.Finite) {e : Expr} (he : e.All FiniteLiteral)
    {v : Value} (h : e.evaluateAt limit data level = .ok v) : v.Finite := by
  have hlevel := lt_of_evaluateAt h
  induction e generalizing level v with
  | literal l =>
    rw [evaluateAt_literal hlevel] at h
    exact Except.ok.inj h ▸ finite_toValue (all_literal.1 he)
  | reference r =>
    rw [evaluateAt_reference hlevel] at h
    exact Reference.finite_of_evaluate hdata h
  | collection items o ih =>
    rw [evaluateAt_collection hlevel] at h
    obtain ⟨vs, hvs, rfl⟩ := map_eq_ok_iff.1 h
    refine Value.finite_list_iff.2 fun v hv => ?_
    obtain ⟨e, hmem, hvalue⟩ := exists_of_mem_evaluateEach hvs hv
    exact ih e hmem ((all_collection.1 he).2 e hmem) hvalue (lt_of_evaluateAt hvalue)
  | comparison op es o ih =>
    rw [evaluateAt_comparison hlevel] at h
    obtain ⟨vs, -, rfl⟩ := map_eq_ok_iff.1 h
    exact Value.finite_boolean _
  | logical op es o ih =>
    rw [evaluateAt_logical hlevel] at h
    obtain ⟨b, -, rfl⟩ := map_eq_ok_iff.1 h
    exact Value.finite_boolean b

theorem lt_of_simplifyAt {e : Expr} {v : Value} (h : e.simplifyAt limit data level = .value v) :
    level < limit := by
  unfold simplifyAt at h
  split at h
  · contradiction
  · rename_i hl
    exact Nat.not_le.1 hl

theorem finite_of_simplifyAt (hdata : data.Finite) {e : Expr} (he : e.All FiniteLiteral)
    {v : Value} (h : e.simplifyAt limit data level = .value v) : v.Finite := by
  have hlevel := lt_of_simplifyAt h
  induction e generalizing level v with
  | literal l =>
    rw [simplifyAt_literal hlevel] at h
    exact Simplified.value.inj h ▸ finite_toValue (all_literal.1 he)
  | reference r =>
    rw [simplifyAt_reference hlevel] at h
    split at h
    · rename_i w hw
      exact Simplified.value.inj h ▸ Reference.finite_of_settle? hdata hw
    · contradiction
  | collection items o ih =>
    rw [simplifyAt_collection hlevel] at h
    split at h
    · rename_i vs hvs
      refine Simplified.value.inj h ▸ Value.finite_list_iff.2 fun v hv => ?_
      obtain ⟨e, hmem, hvalue⟩ := exists_of_mem_settleEach hvs hv
      exact ih e hmem ((all_collection.1 he).2 e hmem) hvalue (lt_of_simplifyAt hvalue)
    · contradiction
  | comparison op es o ih =>
    rw [simplifyAt_comparison hlevel] at h
    split at h
    · exact Simplified.value.inj h ▸ Value.finite_boolean _
    · contradiction
  | logical op es o ih =>
    obtain ⟨b, rfl⟩ := boolean?_of_simplifyAt_logical h
    exact Value.finite_boolean b

end Expr

namespace Options

theorem finiteLiteral_of_readString {o : Options} {s : String} {e : Expr}
    (h : o.readString s = .ok e) : e.FiniteLiteral := by
  rcases readString_eq_ok_iff.1 h with ⟨-, rfl⟩ | ⟨_, _, -, -, rfl⟩ <;> trivial

theorem finiteLiteral_ofNumber (n : Number) : (Expr.literal (.ofNumber n)).FiniteLiteral := by
  cases hn : Literal.ofNumber n with
  | float x => exact Literal.isFinite_of_ofNumber hn
  | _ => trivial

theorem finiteLiterals_of_readAt {o : Options} {depth : Nat} {x : Json} {e : Expr}
    (h : o.readAt depth x = .ok e) : e.All Expr.FiniteLiteral := by
  refine all_of_readAt (fun _ => trivial) finiteLiteral_ofNumber
    (fun _ _ => finiteLiteral_of_readString) ?_ (fun _ => trivial) h
  intro _ _ op _ _
  cases op <;> trivial

end Options

namespace Engine

/-- Whatever an engine evaluates a document to, or settles it to, holds finite doubles only, and so
is exported with null just where a value is missing. -/
theorem finite_of_result (engine : Engine) {x context : Json} {v : Value}
    (h : engine.evaluate x context = .ok v ∨ engine.simplify x context = .ok (.value v)) :
    v.Finite ∧ ∀ steps, v.toJson.At steps .null ↔ v.At steps .nil := by
  have hliterals : ∀ {n : Expr}, engine.read x = .ok n → n.All Expr.FiniteLiteral :=
    fun hread => Options.finiteLiterals_of_readAt (read_eq_ok_iff.1 hread)
  have hdata := Context.finite_contextOf context
  have hv : v.Finite := by
    obtain h | h := h
    · obtain ⟨n, hread, hvalue⟩ := evaluate_eq_ok_iff.1 h
      exact Expr.finite_of_evaluateAt hdata (hliterals hread) hvalue
    · obtain ⟨n, hread, hvalue⟩ := simplify_eq_ok_iff.1 h
      exact Expr.finite_of_simplifyAt hdata (hliterals hread) hvalue
  exact ⟨hv, fun steps => Value.toJson_at_null_iff hv⟩

/-- `["$n.(Float)", [true, "$missing"]]` -/
def castRule : Json :=
  .array [.string "$n.(Float)", .array [.boolean true, .string "$missing"]]

def castN : Reference := ⟨"n.(Float)", "n", .float, .default⟩

def missing : Reference := ⟨"missing", "missing", .undefined, .default⟩

def castExpr : Expr :=
  .collection
    [.reference castN, .collection [.literal (.boolean true), .reference missing] .default] .default

def seven : Json := .object [("n", .number (.integer 7))]

def sevenContext : Context := Context.empty.insert "n" (.integer 7)

def castResult : Value := .list [.float (.ofInt 7), .list [.boolean true, .nil]]

theorem evaluate_castExpr : castExpr.evaluate 128 sevenContext = .ok castResult := by
  have hcast : castN.evaluate sevenContext = .ok (.float (.ofInt 7)) := rfl
  have hmissing : missing.evaluate sevenContext = .ok .nil := rfl
  simp [castExpr, castResult, Expr.evaluate, Expr.evaluateAt, Expr.evaluateEach, hcast, hmissing,
    Literal.toValue, Functor.map, bind, pure, Except.map, Except.bind, Except.pure]

theorem finite_of_result_castRule :
    default.evaluate castRule seven = .ok castResult ∧ castResult.Finite ∧
      ∀ steps, castResult.toJson.At steps .null ↔ castResult.At steps .nil := by
  have hread : default.read castRule = .ok castExpr := rfl
  have hcontext : contextOf seven = sevenContext := by
    have hpairs : Context.ofJson? seven = some (Context.ofPairs [("n", .integer 7)]) := rfl
    rw [contextOf, hpairs, Context.ofPairs_eq_foldl_insert]
    rfl
  have hvalue : default.evaluate castRule seven = .ok castResult :=
    evaluate_eq_ok_iff.2 ⟨castExpr, hread, hcontext ▸ evaluate_castExpr⟩
  exact ⟨hvalue, finite_of_result default (.inl hvalue)⟩

end Engine

end RuleLogic

import RuleLogic.Proofs.Levels
import RuleLogic.Proofs.Rereading
import RuleLogic.Proofs.Tokens

/-! What is left of an expression, stored and read again. Simplifying introduces two operators,
`nor` and `not`; all others were read from their tokens, which still stand for them, and so the
remainder comes back unless the token of one of these two now stands for something else. -/
namespace RuleLogic

open RuleLogic.Expr Operand

namespace Expr

variable {limit level : Nat} {c : Context}

/-- A property of expressions that is kept when a connective is reduced to some of its operands. -/
structure Kept (Q : Expr → Prop) : Prop where
  operand : ∀ {op es o}, Q (logical op es o) → ∀ e ∈ es, Q e
  negate : ∀ {op es o e}, Q (logical op es o) → Q e → Q (negate o e)
  remaining : ∀ {op es o seenTrue left}, Q (logical op es o) → (∀ e ∈ left, Q e) →
    2 ≤ left.length → left.length ≤ es.length → Q (logical (op.remaining seenTrue) left o)

variable {Q : Expr → Prop}

theorem Kept.leftOver (hQ : Kept Q) {op : LogicalOp} {es : List Expr} {o : Options}
    {seenTrue : Bool} {left : List Expr} {r : Expr} (h : Q (logical op es o))
    (hleft : ∀ e ∈ left, Q e) (hlength : left.length ≤ es.length)
    (hr : leftOver o op seenTrue left = .rest r) : Q r := by
  match left with
  | [] => contradiction
  | [e] =>
    have he := hleft e (List.mem_singleton_self e)
    obtain rfl := Simplified.rest.inj hr
    split
    · exact hQ.negate h he
    · exact he
  | e :: e' :: rest =>
    obtain rfl := Simplified.rest.inj hr
    exact hQ.remaining h hleft (by simp) hlength

theorem Kept.rest (hQ : Kept Q) {e r : Expr} (h : e.simplifyAt limit c level = .rest r)
    (he : Q e) : Q r := by
  refine rest_induction (R := fun e r => Q e → Q r) (fun _ => id) ?_ h he
  intro op es o level seenTrue r ih hr he
  -- What is left over are operands as they were, or what was left of them.
  have hleft : ∀ r ∈ unknowns (es.map (operandAt limit c level)), Q r := by
    intro r hr
    obtain ⟨e, hmem, rfl | hrest⟩ := exists_of_mem_unknowns hr
    · exact hQ.operand he r hmem
    · exact ih e hmem r hrest (hQ.operand he e hmem)
  have hlength : (unknowns (es.map (operandAt limit c level))).length ≤ es.length := by
    refine Nat.le_trans (List.length_filterMap_le ..) ?_
    rw [List.length_map]
  exact hQ.leftOver he hleft hlength hr

theorem built_logical {o o' : Options} {op : LogicalOp} {es : List Expr}
    (h : Built o (logical op es o')) :
    o' = o ∧ (∀ e ∈ es, Built o e) ∧ op.accepts es.length = true := by
  generalize hn : logical op es o' = n at h
  cases h with
  | collection _ he =>
    obtain ⟨-, rfl⟩ := collect_eq_ok_iff.1 he
    contradiction
  | @operator op' operands _ hoperands he =>
    obtain ⟨ha, rfl⟩ := build_eq_ok_iff.1 he
    cases op' with
    | logical op' =>
      obtain ⟨rfl, rfl, rfl⟩ := logical.inj hn
      exact ⟨rfl, hoperands, ha⟩
    | comparison op' => contradiction
  | negation he =>
    obtain ⟨rfl, rfl, rfl⟩ := logical.inj hn
    exact ⟨rfl, List.forall_mem_singleton.2 he, rfl⟩
  | _ => contradiction

theorem accepts_remaining {op : LogicalOp} {seenTrue : Bool} {count left : Nat}
    (h : op.accepts count = true) (hleft : 2 ≤ left) (hle : left ≤ count) :
    (op.remaining seenTrue).accepts left = true := by
  cases op with
  | not =>
    -- Of one operand, no two are left.
    obtain rfl : count = 1 := by simpa [LogicalOp.accepts, LogicalOp.isUnary] using h
    omega
  | xor => cases seenTrue <;> exact decide_eq_true hleft
  | _ => exact decide_eq_true hleft

theorem kept_built (o : Options) : Kept (Built o) where
  operand h := (built_logical h).2.1
  negate h he := by
    obtain ⟨rfl, -⟩ := built_logical h
    exact .negation he
  remaining := by
    intro op es o' seenTrue left h hleft htwo hle
    obtain ⟨rfl, -, ha⟩ := built_logical h
    have haccepts : (Operator.logical (op.remaining seenTrue)).accepts left.length = true :=
      accepts_remaining ha htwo hle
    exact .operator hleft (build_eq_ok_iff.2 ⟨haccepts, rfl⟩)

theorem storable_logical {o o' : Options} {op : LogicalOp} {es : List Expr} :
    Storable o (logical op es o') ↔ ∀ e ∈ es, Storable o e :=
  show Storable o (apply o' (.logical op) es) ↔ _ from Storable.apply_iff

theorem kept_storable (o : Options) : Kept (Storable o) where
  operand h := storable_logical.1 h
  negate _ he := storable_logical.2 (List.forall_mem_singleton.2 he)
  remaining _ hleft _ _ := storable_logical.2 hleft

theorem all_headed_logical {P : Operator → Prop} {o : Options} {op : LogicalOp} {es : List Expr} :
    (logical op es o).All (Headed P) ↔ P (.logical op) ∧ ∀ e ∈ es, e.All (Headed P) :=
  show (apply o (.logical op) es).All (Headed P) ↔ _ by rw [all_apply, headed_apply]

theorem remaining_eq (op : LogicalOp) (seenTrue : Bool) :
    op.remaining seenTrue = op ∨ op.remaining seenTrue = .nor := by
  cases op <;> cases seenTrue <;> simp [LogicalOp.remaining]

theorem kept_headed {P : Operator → Prop} (hnor : P (.logical .nor)) (hnot : P (.logical .not)) :
    Kept fun e => e.All (Headed P) where
  operand h := (all_headed_logical.1 h).2
  negate _ he := all_headed_logical.2 ⟨hnot, List.forall_mem_singleton.2 he⟩
  remaining := by
    intro op es o seenTrue left h hleft _ _
    refine all_headed_logical.2 ⟨?_, hleft⟩
    rcases remaining_eq op seenTrue with hop | hop
    · rw [hop]
      exact (all_headed_logical.1 h).1
    · rw [hop]
      exact hnor

def Uses (e : Expr) (op : Operator) : Prop := ∃ operands o, apply o op operands ∈ e.parts

theorem all_headed_iff {P : Operator → Prop} {e : Expr} :
    e.All (Headed P) ↔ ∀ op, e.Uses op → P op := by
  constructor
  · rintro h op ⟨operands, o, hpart⟩
    exact headed_apply.1 (h _ hpart)
  · intro h p hp
    cases p with
    | comparison op operands o => exact h (.comparison op) ⟨operands, o, hp⟩
    | logical op operands o => exact h (.logical op) ⟨operands, o, hp⟩
    | _ => trivial

end Expr

/-- No string in a document starts with the escape. -/
def Json.Unescaped (escape : String) (x : Json) : Prop :=
  ∀ steps s, x.At steps (.string s) → ¬escape.toList <+: s.toList

theorem Json.unescaped_string_iff {escape s : String} :
    (string s).Unescaped escape ↔ ¬escape.toList <+: s.toList := by
  constructor
  · exact fun h => h [] s (.root _)
  · rintro h steps t ⟨⟩
    exact h

theorem Json.unescaped_array_iff {escape : String} {items : List Json} :
    (array items).Unescaped escape ↔ ∀ x ∈ items, x.Unescaped escape := by
  constructor
  · intro h x hx steps s hat
    obtain ⟨index, hindex⟩ := List.getElem?_of_mem hx
    exact h _ s (.item hindex hat)
  · rintro h steps s (_ | _ | ⟨hx, hat⟩)
    exact h _ (List.mem_of_getElem? hx) _ s hat

theorem Json.Unescaped.not_twiceEscaped {escape : String} {x : Json} (h : x.Unescaped escape) :
    ¬x.TwiceEscaped escape := by
  intro htwice
  induction htwice with
  | @head items hhead =>
    match items with
    | .string head :: second :: rest =>
      rw [HeadTwiceEscaped, String.toList_append] at hhead
      have hfirst := unescaped_array_iff.1 h _ (List.mem_cons_self ..)
      exact unescaped_string_iff.1 hfirst ((List.prefix_append _ _).trans hhead)
  | item hx _ ih => exact ih (unescaped_array_iff.1 h _ hx)

namespace Options

theorem headed_of_readAt {o : Options} (ho : o.escape ≠ "") (ht : o.operators.Exact) {depth : Nat}
    {x : Json} {e : Expr} (h : o.readAt depth x = .ok e) : e.All (Headed o.LegibleAs) := by
  refine all_of_readAt (fun _ => trivial) (fun _ => trivial) ?string ?operator (fun _ => trivial) h
  case string =>
    intro s e h
    rcases readString_eq_ok_iff.1 h with ⟨-, rfl⟩ | ⟨_, r, -, -, rfl⟩ <;> trivial
  case operator =>
    intro head rest op operands hop
    obtain ⟨-, s, -, hunescaped, howned⟩ := exists_of_headOf_operator hop
    obtain rfl := ht s op howned
    exact headed_apply.2 ⟨howned, (unescape?_eq_none_iff ho).1 hunescaped⟩

end Options

namespace Engine

theorem simplify_eq_ok_iff {engine : Engine} {x context : Json} {s : Simplified} :
    engine.simplify x context = .ok s ↔
      ∃ n, engine.read x = .ok n ∧
        n.simplify engine.options.maxDepth (contextOf context) = s := by
  unfold simplify
  cases engine.read x <;> simp [bind, Except.bind, pure, Except.pure]

/-- What is left of a document without escapes is read again from what it is written as, whatever
tokens a configuration gives to the operators, exactly if the two operators that simplifying
introduces are read from their tokens where they are left. -/
theorem read_toJson_rest_iff {compile : PatternCompiler} {config : Config} {engine : Engine}
    (hconfig : ofConfigBy compile config = .ok engine) (hescape : config.escape ≠ "")
    {x context : Json} (hx : x.Unescaped config.escape) {r : Expr}
    (h : engine.simplify x context = .ok (.rest r)) :
    engine.read r.toJson = .ok r ↔
      ∀ op, op = .nor ∨ op = .not → r.Uses (.logical op) →
        engine.options.LegibleAs (.logical op) := by
  obtain ⟨operators, patterns, hoperators, -, hoptions⟩ :=
    Config.options_eq_ok_iff.1 (options_of_ofConfigBy hconfig)
  have hsame : engine.options.escape = config.escape := by rw [hoptions]
  have haffix : engine.options.affix.Exact := by
    rw [hoptions]
    exact config.affix.exact_format
  have hexact : engine.options.operators.Exact := by
    rw [hoptions]
    exact Config.exact_of_renameAll TokenTable.exact_default hoperators
  rw [← hsame] at hescape hx
  obtain ⟨n, hread, hrest⟩ := simplify_eq_ok_iff.1 h
  have hn := read_eq_ok_iff.1 hread
  have hheads := (Options.heads_iff_of_readAt hescape haffix hn).2 hx.not_twiceEscaped
  have hbuilt := (kept_built _).rest hrest (Options.built_of_readAt hn)
  have hstorable := (kept_storable _).rest hrest ⟨Options.leaves_of_readAt haffix hn, hheads⟩
  have hfits : 0 + r.height ≤ engine.options.maxDepth :=
    Nat.le_trans (Nat.add_le_add_left (height_le_of_simplifyAt hrest) 0)
      (Options.height_of_readAt hn)
  -- All operators but the two are legible, as they were read.
  have hothers : r.All (Headed fun op =>
      op = .logical .nor ∨ op = .logical .not ∨ engine.options.LegibleAs op) :=
    (kept_headed (.inl rfl) (.inr (.inl rfl))).rest hrest fun p hp =>
      (Options.headed_of_readAt hescape hexact hn p hp).imp fun op hop => .inr (.inr hop)
  rw [read_eq_ok_iff]
  refine (Options.readAt_toJson_built_iff hescape haffix hbuilt hstorable hfits).trans ?_
  rw [all_headed_iff]
  constructor
  · exact fun hall op _ huses => hall _ huses
  · intro htwo op huses
    rcases all_headed_iff.1 hothers op huses with rfl | rfl | hop
    · exact htwo .nor (.inl rfl) huses
    · exact htwo .not (.inr rfl) huses
    · exact hop

/-- `[token, true, "$a", "$b"]` -/
def oneOfThree (token : String) : Json :=
  .array [.string token, .boolean true, .string "$a", .string "$b"]

theorem unescaped_oneOfThree {token : String} (h : ¬"\\".toList <+: token.toList) :
    (oneOfThree token).Unescaped "\\" := by
  have ha : (Json.string "$a").Unescaped "\\" := Json.unescaped_string_iff.2 (by decide)
  have hb : (Json.string "$b").Unescaped "\\" := Json.unescaped_string_iff.2 (by decide)
  have htrue : (Json.boolean true).Unescaped "\\" := by
    rintro steps s ⟨⟩
  refine Json.unescaped_array_iff.2 ?_
  simp [Json.unescaped_string_iff.2 h, ha, hb, htrue]

def neither (o : Options) : Expr :=
  .logical .nor [.reference ⟨"a", "a", .undefined, o⟩, .reference ⟨"b", "b", .undefined, o⟩] o

def shifted : Config where
  __ := Config.default
  operators := [("Nor", "NONE"), ("Or", "NOR"), ("Xor", "ONE")]
  sorted := by decide

def shiftedEngine : Engine :=
  ⟨{ Options.default with
    operators := ((TokenTable.default.rename (.logical .nor) "NONE").rename (.logical .or)
      "NOR").rename (.logical .xor) "ONE" }⟩

theorem read_toJson_rest_shifted :
    shiftedEngine.simplify (oneOfThree "ONE") (.object []) =
        .ok (.rest (neither shiftedEngine.options)) ∧
      shiftedEngine.read (neither shiftedEngine.options).toJson =
        .ok (neither shiftedEngine.options) := by
  have hrest : shiftedEngine.simplify (oneOfThree "ONE") (.object []) =
      .ok (.rest (neither shiftedEngine.options)) := rfl
  have hconfig : ofConfig shifted = .ok shiftedEngine := rfl
  have hx : (oneOfThree "ONE").Unescaped shifted.escape := unescaped_oneOfThree (by decide)
  refine ⟨hrest, (read_toJson_rest_iff hconfig (by decide) hx hrest).2 ?_⟩
  rintro op (rfl | rfl) -
  · exact ⟨by decide, by decide⟩
  · exact ⟨by decide, by decide⟩

def shared : Config where
  __ := Config.default
  operators := [("Nor", "XX"), ("Or", "XX")]
  sorted := by decide

def sharedEngine : Engine :=
  ⟨{ Options.default with
    operators := (TokenTable.default.rename (.logical .nor) "XX").rename (.logical .or) "XX" }⟩

theorem read_toJson_rest_shared :
    ofConfig shared = .ok sharedEngine ∧ (oneOfThree "XOR").Unescaped shared.escape ∧
      sharedEngine.simplify (oneOfThree "XOR") (.object []) =
        .ok (.rest (neither sharedEngine.options)) ∧
      sharedEngine.read (neither sharedEngine.options).toJson ≠
        .ok (neither sharedEngine.options) := by
  refine ⟨rfl, unescaped_oneOfThree (by decide), rfl, fun h => ?_⟩
  have hread : sharedEngine.read (neither sharedEngine.options).toJson =
      .ok (.logical .or
        [.reference ⟨"a", "a", .undefined, sharedEngine.options⟩,
          .reference ⟨"b", "b", .undefined, sharedEngine.options⟩]
        sharedEngine.options) := rfl
  rw [hread] at h
  simp [neither] at h

end Engine

end RuleLogic

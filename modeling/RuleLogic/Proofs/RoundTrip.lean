import RuleLogic.Proofs.Address
import RuleLogic.Proofs.Finite
import RuleLogic.Proofs.Reading

/-! Expressions that are written and read again. Those that the constructors make come back as they
were, at any level with room for their height, as long as no part of them is written as something
else. -/
namespace RuleLogic

/-- What the constructors make under the same options. -/
inductive Built (o : Options) : Expr → Prop
  | literal (l : Literal) : Built o (.literal l)
  | reference {address : String} {r : Reference} :
      Reference.ofAddress o address = .ok r → Built o (.reference r)
  | collection {items : List Expr} {e : Expr} :
      (∀ item ∈ items, Built o item) → Expr.collect o items = .ok e → Built o e
  | operator {op : Operator} {operands : List Expr} {e : Expr} :
      (∀ operand ∈ operands, Built o operand) → Expr.build o op operands = .ok e → Built o e
  | negation {e : Expr} : Built o e → Built o (.negate o e)

namespace Expr

variable {o : Options}

theorem collect_eq_ok_iff {items : List Expr} {e : Expr} :
    collect o items = .ok e ↔ items ≠ [] ∧ e = collection items o := by
  cases items <;> simp [collect, eq_comm]

theorem build_eq_ok_iff {op : Operator} {operands : List Expr} {e : Expr} :
    build o op operands = .ok e ↔ op.accepts operands.length = true ∧ e = apply o op operands := by
  unfold build
  split <;> rename_i h <;> simp [h, eq_comm]

theorem negate_eq_apply (o : Options) (e : Expr) : negate o e = apply o (.logical .not) [e] := rfl

theorem all_of_built {P : Expr → Prop} {n : Expr} (h : Built o n) (hliteral : ∀ l, P (literal l))
    (hreference : ∀ r : Reference, r.options = o → P (reference r))
    (hcollection : ∀ items, items ≠ [] → P (collection items o))
    (happly : ∀ (op : Operator) operands, op.accepts operands.length = true →
      P (apply o op operands)) :
    n.All P := by
  induction h with
  | literal l => exact all_literal.2 (hliteral l)
  | reference hr => exact all_reference.2 (hreference _ (Reference.ofAddress_eq_ok hr).2.2)
  | collection _ he ih =>
    obtain ⟨hne, rfl⟩ := collect_eq_ok_iff.1 he
    exact all_collection.2 ⟨hcollection _ hne, ih⟩
  | operator _ he ih =>
    obtain ⟨ha, rfl⟩ := build_eq_ok_iff.1 he
    exact all_apply.2 ⟨happly _ _ ha, ih⟩
  | negation _ ih =>
    rw [negate_eq_apply]
    exact all_apply.2 ⟨happly _ _ rfl, List.forall_mem_singleton.2 ih⟩

theorem apply_inj {op op' : Operator} {operands operands' : List Expr} :
    apply o op operands = apply o op' operands' ↔ op = op' ∧ operands = operands' := by
  cases op <;> cases op' <;> simp [apply]

theorem apply_ne_collection {o' : Options} {op : Operator} {operands items : List Expr} :
    apply o op operands ≠ collection items o' := by
  cases op <;> simp [apply]

@[simp]
theorem toJson_apply (op : Operator) (operands : List Expr) :
    (apply o op operands).toJson =
      .array (.string (o.operators.token op) :: toJsons operands) := by
  cases op <;> rfl

@[simp]
theorem height_apply (op : Operator) (operands : List Expr) :
    (apply o op operands).height = heights operands + 1 := by
  cases op <;> rfl

theorem toJsons_eq_map (es : List Expr) : toJsons es = es.map toJson := by
  induction es with
  | nil => rfl
  | cons e rest ih => rw [toJsons, ih, List.map_cons]

/-- A reference has an address. Of the literals, a number is finite, and a string is not taken for a
reference. -/
def StorableLeaf (o : Options) : Expr → Prop
  | literal (.float x) => x.isFinite = true
  | literal (.string s) => o.affix.strip? s = none
  | reference r => r.address ≠ ""
  | _ => True

theorem storableLeaf_apply {o' : Options} (op : Operator) {operands : List Expr} :
    StorableLeaf o (apply o' op operands) := by
  cases op <;> trivial

/-- A collection of two or more items whose first one is written as a string that starts with the
escape. -/
def HeadEscaped (o : Options) : Expr → Prop
  | collection (first :: _ :: _) _ => ∃ s, first.toJson = .string s ∧ o.escape.toList <+: s.toList
  | _ => False

theorem not_headEscaped_apply {o' : Options} (op : Operator) {operands : List Expr} :
    ¬(apply o' op operands).HeadEscaped o := by
  cases op <;> exact id

def Headed (P : Operator → Prop) : Expr → Prop
  | comparison op _ _ => P (.comparison op)
  | logical op _ _ => P (.logical op)
  | _ => True

@[simp]
theorem headed_apply {P : Operator → Prop} {op : Operator} {operands : List Expr} :
    (apply o op operands).Headed P ↔ P op := by
  cases op <;> rfl

theorem headed_of_forall {P : Operator → Prop} (h : ∀ op, P op) (e : Expr) : e.Headed P := by
  cases e <;> first | exact h _ | trivial

theorem Headed.imp {P P' : Operator → Prop} {e : Expr} (h : e.Headed P)
    (himp : ∀ op, P op → P' op) : e.Headed P' := by
  cases e <;> first | exact himp _ h | trivial

end Expr

open RuleLogic.Expr

structure Storable (o : Options) (n : Expr) : Prop where
  leaves : n.All (StorableLeaf o)
  heads : n.All fun p => ¬p.HeadEscaped o

namespace Storable

variable {o o' : Options}

theorem literal_iff {l : Literal} : Storable o (literal l) ↔ StorableLeaf o (literal l) :=
  ⟨fun h => all_literal.1 h.leaves, fun h => ⟨all_literal.2 h, all_literal.2 id⟩⟩

theorem reference_iff {r : Reference} : Storable o (reference r) ↔ r.address ≠ "" :=
  ⟨fun h => all_reference.1 h.leaves, fun h => ⟨all_reference.2 h, all_reference.2 id⟩⟩

theorem collection_iff {items : List Expr} :
    Storable o (collection items o') ↔
      ¬(collection items o').HeadEscaped o ∧ ∀ e ∈ items, Storable o e := by
  constructor
  · rintro ⟨hleaves, hheads⟩
    rw [all_collection] at hleaves hheads
    exact ⟨hheads.1, fun e he => ⟨hleaves.2 e he, hheads.2 e he⟩⟩
  · rintro ⟨hhead, h⟩
    exact ⟨all_collection.2 ⟨trivial, fun e he => (h e he).leaves⟩,
      all_collection.2 ⟨hhead, fun e he => (h e he).heads⟩⟩

theorem apply_iff {op : Operator} {operands : List Expr} :
    Storable o (apply o' op operands) ↔ ∀ e ∈ operands, Storable o e := by
  constructor
  · rintro ⟨hleaves, hheads⟩ e he
    rw [all_apply] at hleaves hheads
    exact ⟨hleaves.2 e he, hheads.2 e he⟩
  · intro h
    exact ⟨all_apply.2 ⟨storableLeaf_apply op, fun e he => (h e he).leaves⟩,
      all_apply.2 ⟨not_headEscaped_apply op, fun e he => (h e he).heads⟩⟩

end Storable

theorem Operator.forall_iff {P : Operator → Prop} : (∀ op, P op) ↔ ∀ op ∈ all, P op :=
  ⟨fun h op _ => h op, fun h op => h op op.mem_all⟩

theorem TokenTable.lookup_defaultToken :
    ∀ op : Operator, default.lookup op.defaultToken = some op :=
  Operator.forall_iff.2 (by decide)

theorem TokenTable.lookup_default_eq_some_iff {s : String} {op : Operator} :
    default.lookup s = some op ↔ s = op.defaultToken := by
  constructor
  · intro h
    obtain ⟨before, after, howners, -⟩ := List.lookup_eq_some_iff.1 h
    have hmem : (s, op) ∈ default.owners := by
      rw [howners]
      simp
    obtain ⟨op', -, hop⟩ := List.mem_map.1 hmem
    obtain ⟨rfl, rfl⟩ := Prod.mk.inj hop
    rfl
  · rintro rfl
    exact lookup_defaultToken op

namespace Options

/-- Lists headed by the token of the operator are read as its expressions. -/
structure LegibleAs (o : Options) (op : Operator) : Prop where
  owned : o.operators.lookup (o.operators.token op) = some op
  unescaped : ¬o.escape.toList <+: (o.operators.token op).toList

/-- References are marked by affixes, and lists headed by the token of an operator are read as its
expressions. -/
structure Legible (o : Options) : Prop where
  affixed : ∃ affix : Affix, o.affix = affix.format
  escapes : o.escape ≠ ""
  owned : ∀ op, o.operators.lookup (o.operators.token op) = some op
  unescaped : ∀ op, ¬o.escape.toList <+: (o.operators.token op).toList

theorem Legible.legibleAs {o : Options} (ho : o.Legible) (op : Operator) : o.LegibleAs op :=
  ⟨ho.owned op, ho.unescaped op⟩

theorem Legible.exact {o : Options} (ho : o.Legible) : o.affix.Exact := by
  obtain ⟨affix, haffix⟩ := ho.affixed
  rw [haffix]
  exact affix.exact_format

theorem legible_default : default.Legible where
  affixed := ⟨.default, rfl⟩
  escapes := by decide
  owned := TokenTable.lookup_defaultToken
  unescaped := Operator.forall_iff.2 (by decide)

variable {o : Options} {depth : Nat}

theorem readEach_toJsons {es : List Expr} :
    o.readEach depth (toJsons es) = .ok es ↔ ∀ e ∈ es, o.readAt depth e.toJson = .ok e := by
  rw [readEach_eq_ok_iff, toJsons_eq_map, List.forall₂_map_left_iff, List.forall₂_same]

theorem headOf_string {s : String} {rest : List Json} (hrest : rest ≠ []) :
    o.headOf (.string s) rest = match o.unescape? s with
      | some s => .escaped s
      | none => ((o.operators.lookup s).map Head.operator).getD .unknown := by
  cases rest with
  | nil => contradiction
  | cons second rest =>
    rw [headOf]
    · cases o.unescape? s with
      | some s => rfl
      | none => cases o.operators.lookup s <;> simp
    · simp

theorem headOf_token_iff (ho : o.escape ≠ "") {op : Operator} {rest : List Json}
    (hrest : rest ≠ []) :
    o.headOf (.string (o.operators.token op)) rest = .operator op ↔ o.LegibleAs op := by
  rw [headOf_string hrest]
  constructor
  · intro h
    cases hu : o.unescape? (o.operators.token op) with
    | some s => simp [hu] at h
    | none =>
      refine ⟨?_, (unescape?_eq_none_iff ho).1 hu⟩
      cases hl : o.operators.lookup (o.operators.token op) with
      | none => simp [hu, hl] at h
      | some owner => simpa [hu, hl] using h
  · rintro ⟨howned, hunescaped⟩
    rw [(unescape?_eq_none_iff ho).2 hunescaped]
    simp [howned]

theorem headOf_escapeHead (ho : o.escape ≠ "") {first : Json} {rest : List Json}
    (hfirst : rest ≠ [] → ∀ s, first = .string s → ¬o.escape.toList <+: s.toList) :
    ∃ head, escapeHead o (first :: rest) = head :: rest ∧
      (∀ op, o.headOf head rest ≠ .operator op) ∧ (o.headOf head rest).source head = first := by
  cases rest with
  | nil =>
    refine ⟨first, ?_, by simp [headOf], by simp [headOf, Head.source]⟩
    cases first <;> rfl
  | cons second rest =>
    have hrest : second :: rest ≠ [] := by simp
    cases first with
    | string s =>
      cases hs : o.operators.lookup s with
      | some op =>
        have hread : o.unescape? (o.escaped s) = some s := (unescape?_eq_some_iff ho).2 rfl
        refine ⟨.string (o.escaped s), by simp [escapeHead, TokenTable.isReserved, hs], ?_, ?_⟩
          <;> simp [headOf_string hrest, hread, Head.source]
      | none =>
        have hread := (unescape?_eq_none_iff ho).2 (hfirst hrest s rfl)
        refine ⟨.string s, by simp [escapeHead, TokenTable.isReserved, hs], ?_, ?_⟩
          <;> simp [headOf_string hrest, hread, hs, Head.source]
    | _ => exact ⟨_, rfl, by simp [headOf], by simp [headOf, Head.source]⟩

theorem readAt_toJson_apply_iff (ho : o.escape ≠ "") (op : Operator) {operands : List Expr}
    (ha : op.accepts operands.length = true) :
    o.readAt depth (apply o op operands).toJson = .ok (apply o op operands) ↔
      depth < o.maxDepth ∧ o.LegibleAs op ∧
        ∀ e ∈ operands, o.readAt (depth + 1) e.toJson = .ok e := by
  have hne : toJsons operands ≠ [] := by
    rw [toJsons_eq_map]
    rintro hnil
    rw [List.map_eq_nil_iff.1 hnil] at ha
    cases op with
    | logical op => cases op <;> contradiction
    | comparison op => cases op <;> contradiction
  rw [toJson_apply, readAt_array_eq_ok_iff, ← readEach_toJsons, ← headOf_token_iff ho hne]
  simp only [apply_inj, apply_ne_collection, and_false, exists_false, or_false]
  constructor
  · rintro ⟨hd, _, _, hop, hread, _, rfl, rfl⟩
    exact ⟨hd, hop, hread⟩
  · rintro ⟨hd, hop, hread⟩
    exact ⟨hd, op, operands, hop, hread, ha, rfl, rfl⟩

theorem readAt_toJson_collection (ho : o.escape ≠ "") {items : List Expr} (hne : items ≠ [])
    (hi : ¬(collection items o).HeadEscaped o) :
    o.readAt depth (collection items o).toJson = .ok (collection items o) ↔
      depth < o.maxDepth ∧ ∀ e ∈ items, o.readAt (depth + 1) e.toJson = .ok e := by
  obtain ⟨first, rest, rfl⟩ := List.exists_cons_of_ne_nil hne
  have hfirst : toJsons rest ≠ [] → ∀ s, first.toJson = .string s →
      ¬o.escape.toList <+: s.toList := by
    intro hrest s hs hprefix
    cases rest with
    | nil => contradiction
    | cons second rest => exact hi ⟨s, hs, hprefix⟩
  obtain ⟨head, hwritten, hno, hsource⟩ := headOf_escapeHead ho hfirst
  rw [Expr.toJson, toJsons, hwritten, readAt_array_eq_ok_iff, hsource]
  simp only [List.forall_mem_cons, ← readEach_toJsons]
  constructor
  · rintro ⟨hd, ⟨op, _, hop, _⟩ | ⟨_, _, _, hread, hreads, hitems⟩⟩
    · exact absurd hop (hno op)
    · obtain ⟨rfl, rfl⟩ := List.cons.inj (Expr.collection.inj hitems).1
      exact ⟨hd, hread, hreads⟩
  · rintro ⟨hd, hread, hreads⟩
    exact ⟨hd, .inr ⟨first, rest, fun op hop => absurd hop (hno op), hread, hreads, rfl⟩⟩

theorem readAt_toJson_literal {l : Literal} (hs : Storable o (literal l))
    (hd : depth < o.maxDepth) : o.readAt depth l.toJson = .ok (literal l) := by
  cases l with
  | boolean b => exact readAt_boolean hd b
  | integer k => exact readAt_number hd (.integer k)
  | float x =>
    have hx : x.isFinite = true := Storable.literal_iff.1 hs
    rw [Literal.toJson_float hx]
    exact readAt_number hd (.double x hx)
  | string s =>
    have hplain : o.affix.strip? s = none := Storable.literal_iff.1 hs
    change o.readAt depth (.string s) = _
    rw [readAt_string hd]
    exact readString_eq_ok_iff.2 (.inl ⟨hplain, rfl⟩)

theorem readAt_toJson_reference (ho : o.affix.Exact) {address : String} {r : Reference}
    (hr : Reference.ofAddress o address = .ok r) (hs : Storable o (reference r))
    (hd : depth < o.maxDepth) : o.readAt depth (reference r).toJson = .ok (reference r) := by
  obtain ⟨haddress, hwritten, hoptions⟩ := Reference.ofAddress_eq_ok hr
  have hne : address ≠ "" := haddress ▸ Storable.reference_iff.1 hs
  rw [Expr.toJson, hoptions, hwritten, readAt_string hd]
  exact readString_render ho hne hr

theorem readAt_toJson_apply_heads_iff (ho : o.escape ≠ "") {op : Operator} {operands : List Expr}
    (ha : op.accepts operands.length = true) (hd : depth < o.maxDepth)
    (h : ∀ e ∈ operands, o.readAt (depth + 1) e.toJson = .ok e ↔ e.All (Headed o.LegibleAs)) :
    o.readAt depth (apply o op operands).toJson = .ok (apply o op operands) ↔
      (apply o op operands).All (Headed o.LegibleAs) := by
  rw [readAt_toJson_apply_iff ho op ha, all_apply, headed_apply, and_iff_right hd]
  exact and_congr_right fun _ => forall₂_congr h

/-- What is built and storable is read again, at every level that leaves room for it, where the
tokens of all its operators stand for them. -/
theorem readAt_toJson_built_iff (ho : o.escape ≠ "") (haffix : o.affix.Exact) {n : Expr}
    (hb : Built o n) (hs : Storable o n) (hd : depth + n.height ≤ o.maxDepth) :
    o.readAt depth n.toJson = .ok n ↔ n.All (Headed o.LegibleAs) := by
  induction hb generalizing depth with
  | literal l =>
    exact iff_of_true (readAt_toJson_literal hs (lt_of_fits hd)) (all_literal.2 trivial)
  | reference hr =>
    have hread := readAt_toJson_reference haffix hr hs (lt_of_fits hd)
    exact iff_of_true hread (all_reference.2 trivial)
  | collection hitems he ih =>
    obtain ⟨hne, rfl⟩ := collect_eq_ok_iff.1 he
    obtain ⟨hhead, hall⟩ := Storable.collection_iff.1 hs
    rw [readAt_toJson_collection ho hne hhead, all_collection, and_iff_right (lt_of_fits hd)]
    refine Iff.trans ?_ (and_iff_right trivial).symm
    exact forall₂_congr fun e he => ih e he (hall e he) (fits_of_mem he hd)
  | operator hoperands he ih =>
    obtain ⟨ha, rfl⟩ := build_eq_ok_iff.1 he
    have hall := Storable.apply_iff.1 hs
    have hlevel := lt_of_fits hd
    rw [height_apply] at hd
    exact readAt_toJson_apply_heads_iff ho ha hlevel fun e he =>
      ih e he (hall e he) (fits_of_mem he hd)
  | @negation e he ih =>
    have hmem : e ∈ [e] := List.mem_singleton_self e
    have hall := Storable.apply_iff.1 (negate_eq_apply o e ▸ hs) e hmem
    have ha : (Operator.logical .not).accepts [e].length = true := rfl
    exact readAt_toJson_apply_heads_iff ho ha (lt_of_fits hd) <|
      List.forall_mem_singleton.2 (ih hall (fits_of_mem hmem hd))

theorem readAt_toJson (ho : o.Legible) {n : Expr} (hb : Built o n) (hs : Storable o n)
    (hd : depth + n.height ≤ o.maxDepth) : o.readAt depth n.toJson = .ok n :=
  (readAt_toJson_built_iff ho.escapes ho.exact hb hs hd).2 fun p _ =>
    headed_of_forall ho.legibleAs p

/-- Built and storable expressions up to the depth limit are read again from what they are written
as. -/
theorem read_toJson (ho : o.Legible) {n : Expr} (hb : Built o n) (hs : Storable o n)
    (hd : n.height ≤ o.maxDepth) : o.read n.toJson = .ok n := by
  refine readAt_toJson ho hb hs ?_
  rwa [Nat.zero_add]

def marked : Options :=
  { default with
    operators := TokenTable.default.rename (.logical .and) "&&"
    affix := Affix.format ⟨"<", ">"⟩
    escape := "!!"
    maxDepth := 5 }

def markedPath : Reference := ⟨"a.b.(String)", "a.b", .string, marked⟩

def markedTag : Reference := ⟨"tags", "tags", .undefined, marked⟩

def markedEqual : Expr :=
  apply marked (.comparison .equal) [.reference markedPath, .literal (.string "x")]

def markedList : Expr :=
  .collection
    [.literal (.string "&&"), .literal (.float (.ofRatio false 5 2)),
      .collection [.reference markedTag] marked]
    marked

/-- `["&&", ["==", "<a.b.(String)>", "x"], ["NOT", ["!!&&", 2.5, ["<tags>"]]]]` -/
def markedRule : Expr := apply marked (.logical .and) [markedEqual, negate marked markedList]

theorem legible_marked : marked.Legible where
  affixed := ⟨⟨"<", ">"⟩, rfl⟩
  escapes := by decide
  owned := Operator.forall_iff.2 (by decide)
  unescaped := Operator.forall_iff.2 (by decide)

theorem built_markedRule : Built marked markedRule := by
  have hpath : Reference.ofAddress marked "a.b.(String)" = .ok markedPath := rfl
  have htag : Reference.ofAddress marked "tags" = .ok markedTag := rfl
  have htags : Built marked (.collection [.reference markedTag] marked) :=
    .collection (List.forall_mem_singleton.2 (.reference htag)) (collect_eq_ok_iff.2 ⟨by simp, rfl⟩)
  have hlist : Built marked markedList :=
    .collection (by simp [htags, Built.literal]) (collect_eq_ok_iff.2 ⟨by simp, rfl⟩)
  have hequal : Built marked markedEqual :=
    .operator (by simp [Built.reference hpath, Built.literal]) (build_eq_ok_iff.2 ⟨rfl, rfl⟩)
  exact .operator (by simp [hequal, Built.negation hlist]) (build_eq_ok_iff.2 ⟨rfl, rfl⟩)

theorem storable_markedRule : Storable marked markedRule := by
  have htag : Storable marked (.reference markedTag) := Storable.reference_iff.2 (by decide)
  have hfraction : Storable marked (.literal (.float (.ofRatio false 5 2))) :=
    Storable.literal_iff.2 (by decide +kernel : (Double.ofRatio false 5 2).isFinite = true)
  have htext : Storable marked (.literal (.string "&&")) := Storable.literal_iff.2 rfl
  have hlist : Storable marked markedList := by
    refine Storable.collection_iff.2 ⟨?_, ?_⟩
    · rintro ⟨s, hs, hprefix⟩
      obtain rfl := Json.string.inj hs
      exact absurd hprefix (by decide)
    · have htags : Storable marked (.collection [.reference markedTag] marked) :=
        Storable.collection_iff.2 ⟨id, List.forall_mem_singleton.2 htag⟩
      simp [htext, hfraction, htags]
  have hequal : Storable marked markedEqual := by
    have hpath : Storable marked (.reference markedPath) := Storable.reference_iff.2 (by decide)
    have hx : Storable marked (.literal (.string "x")) := Storable.literal_iff.2 rfl
    exact Storable.apply_iff.2 (by simp [hpath, hx])
  exact Storable.apply_iff.2 (by simp [hequal, negate_eq_apply, Storable.apply_iff, hlist])

theorem read_toJson_markedRule : marked.read markedRule.toJson = .ok markedRule :=
  read_toJson legible_marked built_markedRule storable_markedRule (by decide)

end Options

end RuleLogic

import RuleLogic.Proofs.Depth

/-! Which documents are read. One is refused for its depth or for some part of it alone: a null, an
object, an empty list, or a reference to an unknown type. What its lists are taken for makes no
difference, since a head that is not read as an item could be. -/
namespace RuleLogic

namespace Reference

def AsksUnknownType (address : String) : Prop :=
  ∃ path name, address = path ++ ".(" ++ name ++ ")" ∧ path ≠ "" ∧ IsTypeName name ∧
    name ∉ ["Number", "Integer", "Float", "String", "Boolean"]

end Reference

theorem DataType.ofName?_eq_none_iff {name : String} :
    ofName? name = none ↔ name ∉ ["Number", "Integer", "Float", "String", "Boolean"] := by
  have hnames : ["Number", "Integer", "Float", "String", "Boolean"] =
    castable.map DataType.name := rfl
  rw [hnames, ofName?, List.find?_eq_none]
  simp

namespace Reference

theorem asksUnknownType_iff {address : String} :
    AsksUnknownType address ↔
      ∃ path name, typeSuffix? address = some (path, name) ∧ DataType.ofName? name = none := by
  simp only [AsksUnknownType, typeSuffix?_eq_some_iff, DataType.ofName?_eq_none_iff, and_assoc]

theorem exists_ofAddress_iff {o : Options} {address : String} :
    (∃ r, ofAddress o address = .ok r) ↔ ¬AsksUnknownType address := by
  rw [asksUnknownType_iff]
  unfold ofAddress
  cases typeSuffix? address with
  | none => simp
  | some suffix =>
    obtain ⟨path, name⟩ := suffix
    cases hn : DataType.ofName? name <;> simp [hn]

end Reference

namespace Json

open Reference

/-- The items of a list as they are read, the string that heads two or more unescaped. -/
def unescapeHead (unescape : String → String) : List Json → List Json
  | .string head :: second :: rest => .string (unescape head) :: second :: rest
  | items => items

/-- What a document is read from: itself and the items of its lists on all levels. -/
inductive Part (unescape : String → String) : Json → Json → Prop
  | itself (x : Json) : Part unescape x x
  | item {items : List Json} {x part : Json} :
      x ∈ unescapeHead unescape items → Part unescape x part → Part unescape (.array items) part

/-- What is never read, wherever it stands. -/
inductive Refused (format : AddressFormat) : Json → Prop
  | null : Refused format .null
  | object (members : List (String × Json)) : Refused format (.object members)
  | empty : Refused format (.array [])
  | reference {address : String} :
      AsksUnknownType address → Refused format (.string (format.render address))

variable {unescape : String → String} {P : Json → Prop}

theorem forall_part_array {items : List Json} :
    (∀ part, Part unescape (.array items) part → P part) ↔
      P (.array items) ∧
        ∀ x ∈ unescapeHead unescape items, ∀ part, Part unescape x part → P part := by
  constructor
  · exact fun h => ⟨h _ (.itself _), fun x hx part hpart => h part (.item hx hpart)⟩
  · rintro ⟨hself, hitems⟩ part (_ | ⟨hx, hpart⟩)
    · exact hself
    · exact hitems _ hx part hpart

def IsLeaf (x : Json) : Prop := ∀ head rest, x ≠ .array (head :: rest)

theorem IsLeaf.height_eq {x : Json} (h : x.IsLeaf) : x.height = 1 := by
  cases x with
  | array items =>
    cases items with
    | nil => rfl
    | cons head rest => exact absurd rfl (h head rest)
  | _ => rfl

theorem IsLeaf.forall_part {x : Json} (h : x.IsLeaf) :
    (∀ part, Part unescape x part → P part) ↔ P x := by
  constructor
  · exact fun hparts => hparts x (.itself x)
  · intro hx part hpart
    cases hpart with
    | itself => exact hx
    | @item items y part hy hpart =>
      cases items with
      | nil => contradiction
      | cons head rest => exact absurd rfl (h head rest)

theorem refused_string_iff {format : AddressFormat} (hformat : format.Exact) {s : String} :
    (Json.string s).Refused format ↔
      ∃ address, format.strip? s = some address ∧ AsksUnknownType address := by
  simp only [hformat s]
  constructor
  · rintro (_ | _ | _ | @⟨address, h⟩)
    refine ⟨address, ⟨?_, rfl⟩, h⟩
    obtain ⟨path, name, rfl, -⟩ := h
    simp
  · rintro ⟨address, ⟨-, rfl⟩, h⟩
    exact .reference h

theorem mem_unescapeHead {items : List Json} {x : Json} (h : x ∈ unescapeHead unescape items) :
    x ∈ items ∨ ∃ s, x = .string s := by
  unfold unescapeHead at h
  split at h
  · rcases List.mem_cons.1 h with rfl | hx
    · exact .inr ⟨_, rfl⟩
    · exact .inl (List.mem_cons_of_mem _ hx)
  · exact .inl h

theorem heights_unescapeHead (items : List Json) :
    heights (unescapeHead unescape items) = heights items := by
  unfold unescapeHead
  split <;> rfl

theorem fits_array_iff {items : List Json} {level limit : Nat} :
    level + (Json.array items).height ≤ limit ↔
      level < limit ∧ ∀ x ∈ unescapeHead unescape items, level + 1 + x.height ≤ limit := by
  have hlevel : level + (Json.array items).height ≤ limit ↔
      level < limit ∧ heights (unescapeHead unescape items) ≤ limit - (level + 1) := by
    rw [heights_unescapeHead, height]
    omega
  rw [hlevel, heights_le_iff]
  refine and_congr_right fun hl => forall₂_congr fun x _ => ?_
  omega

end Json

namespace Options

open Json Reference

variable {o : Options} {depth : Nat}

theorem exists_readString_iff (haffix : o.affix.Exact) {s : String} :
    (∃ e, o.readString s = .ok e) ↔ ¬(Json.string s).Refused o.affix := by
  rw [refused_string_iff haffix]
  unfold readString
  cases hs : o.affix.strip? s with
  | none => simp
  | some address =>
    have haddress : (∃ r, Reference.ofAddress o address = .ok r) ↔ ¬AsksUnknownType address :=
      exists_ofAddress_iff
    cases hr : Reference.ofAddress o address <;> simpa [hr] using haddress

theorem unescapeHead_cons (o : Options) (head : Json) (rest : List Json) :
    unescapeHead o.unescape (head :: rest) = (o.headOf head rest).source head :: rest := by
  cases rest with
  | nil => cases head <;> simp [unescapeHead, headOf, Head.source]
  | cons second rest =>
    cases head with
    | string s =>
      rw [headOf_string (List.cons_ne_nil _ _), unescapeHead, unescape]
      cases o.unescape? s with
      | some t => rfl
      | none => cases o.operators.lookup s <;> rfl
    | _ => rfl

theorem exists_readEach_iff {xs : List Json} :
    (∃ es, o.readEach depth xs = .ok es) ↔ ∀ x ∈ xs, ∃ e, o.readAt depth x = .ok e := by
  simp only [readEach_eq_ok_iff]
  induction xs with
  | nil => simp
  | cons x rest ih => simp [List.forall₂_cons_left_iff, ← ih]

def ReadableTokens (o : Options) : Prop :=
  ∀ s op, o.operators.lookup s = some op → ¬(Json.string s).Refused o.affix

theorem exists_readAt_array_iff (haffix : o.affix.Exact) (ho : o.ReadableTokens) {head : Json}
    {rest : List Json} :
    (∃ e, o.readAt depth (.array (head :: rest)) = .ok e) ↔
      depth < o.maxDepth ∧
        ∀ x ∈ unescapeHead o.unescape (head :: rest), ∃ e, o.readAt (depth + 1) x = .ok e := by
  rw [unescapeHead_cons, List.forall_mem_cons, ← exists_readEach_iff]
  constructor
  · rintro ⟨e, he⟩
    obtain ⟨hd, ⟨op, operands, hop, hoperands, -⟩ | ⟨first, items, -, hfirst, hitems, -⟩⟩ :=
      readAt_array_eq_ok_iff.1 he
    · obtain ⟨hrest, s, rfl, -, hs⟩ := exists_of_headOf_operator hop
      obtain ⟨x, hx⟩ := List.exists_mem_of_ne_nil rest hrest
      obtain ⟨e, he⟩ := exists_readEach_iff.1 ⟨operands, hoperands⟩ x hx
      have hsource : (Head.operator op).source (.string s) = .string s := rfl
      rw [hop, hsource, readAt_string (lt_of_readAt he)]
      exact ⟨hd, (exists_readString_iff haffix).2 (ho s op hs), operands, hoperands⟩
    · exact ⟨hd, ⟨first, hfirst⟩, items, hitems⟩
  · rintro ⟨hd, ⟨first, hfirst⟩, items, hitems⟩
    by_cases hop : ∃ op, o.headOf head rest = .operator op ∧ op.accepts items.length = true
    · obtain ⟨op, hop, ha⟩ := hop
      exact ⟨_, readAt_array_eq_ok_iff.2 ⟨hd, .inl ⟨op, items, hop, hitems, ha, rfl⟩⟩⟩
    · have hno : ∀ op, o.headOf head rest = .operator op → op.accepts items.length = false :=
        fun op h => Bool.eq_false_iff.2 fun ha => hop ⟨op, h, ha⟩
      exact ⟨_, readAt_array_eq_ok_iff.2 ⟨hd, .inr ⟨first, items, hno, hfirst, hitems, rfl⟩⟩⟩

theorem exists_readAt_leaf_iff (haffix : o.affix.Exact) {x : Json} (hx : x.IsLeaf) :
    (∃ e, o.readAt depth x = .ok e) ↔
      depth + x.height ≤ o.maxDepth ∧
        ∀ part, Part o.unescape x part → ¬part.Refused o.affix := by
  rw [hx.forall_part, hx.height_eq]
  by_cases hd : depth < o.maxDepth
  · have hd' := Nat.not_le.2 hd
    rw [and_iff_right (Nat.succ_le_of_lt hd)]
    cases x with
    | null => exact iff_of_false (by simp [readAt, hd']) fun h => h .null
    | boolean b =>
      have hnot : ¬(Json.boolean b).Refused o.affix := by rintro ⟨⟩
      exact iff_of_true ⟨_, readAt_boolean hd b⟩ hnot
    | number n =>
      have hnot : ¬(Json.number n).Refused o.affix := by rintro ⟨⟩
      exact iff_of_true ⟨_, readAt_number hd n⟩ hnot
    | string s =>
      rw [readAt_string hd]
      exact exists_readString_iff haffix
    | object members =>
      exact iff_of_false (by simp [readAt, hd']) fun h => h (.object members)
    | array items =>
      cases items with
      | nil => exact iff_of_false (by simp [readAt, hd']) fun h => h .empty
      | cons head rest => exact absurd rfl (hx head rest)
  · refine iff_of_false ?_ fun h => hd h.1
    rintro ⟨e, he⟩
    exact hd (lt_of_readAt he)

/-- A document is read just when it is not too deep and no part of it is refused. -/
theorem exists_readAt_iff (haffix : o.affix.Exact) (ho : o.ReadableTokens) {x : Json} :
    (∃ e, o.readAt depth x = .ok e) ↔
      depth + x.height ≤ o.maxDepth ∧
        ∀ part, Part o.unescape x part → ¬part.Refused o.affix := by
  induction x using Json.induction generalizing depth with
  | array items ih =>
    cases items with
    | nil => exact exists_readAt_leaf_iff haffix nofun
    | cons head rest =>
      have hitems : ∀ x ∈ unescapeHead o.unescape (head :: rest),
          ((∃ e, o.readAt (depth + 1) x = .ok e) ↔
            depth + 1 + x.height ≤ o.maxDepth ∧
              ∀ part, Part o.unescape x part → ¬part.Refused o.affix) := by
        intro x hx
        rcases mem_unescapeHead hx with hx | ⟨s, rfl⟩
        · exact ih x hx
        · exact exists_readAt_leaf_iff haffix nofun
      have hself : ¬(Json.array (head :: rest)).Refused o.affix := nofun
      rw [exists_readAt_array_iff haffix ho, forall₂_congr hitems, forall₂_and, ← and_assoc,
        ← fits_array_iff, forall_part_array, and_iff_right hself]
  | null => exact exists_readAt_leaf_iff haffix nofun
  | boolean b => exact exists_readAt_leaf_iff haffix nofun
  | number n => exact exists_readAt_leaf_iff haffix nofun
  | string s => exact exists_readAt_leaf_iff haffix nofun
  | object members => exact exists_readAt_leaf_iff haffix nofun

theorem readableTokens_of_default (htokens : o.operators = .default)
    (haffix : o.affix = Affix.default.format) : o.ReadableTokens := by
  have hplain : ∀ op : Operator, Affix.default.format.strip? op.defaultToken = none :=
    Operator.forall_iff.2 (by decide)
  intro s op hs
  rw [htokens, TokenTable.lookup_default_eq_some_iff] at hs
  rw [haffix, refused_string_iff Affix.default.exact_format, hs, hplain op]
  simp

def dropBackslash (s : String) : String :=
  match s.toList with
  | '\\' :: cs => String.ofList cs
  | _ => s

theorem unescape_eq_dropBackslash (h : o.escape = defaultEscape) :
    o.unescape = dropBackslash := by
  funext s
  have hcut : o.unescape? s = (Affix.dropHead? ['\\'] s.toList).map String.ofList := by
    rw [unescape?, h]
    rfl
  rw [unescape, hcut, dropBackslash]
  cases s.toList with
  | nil => rfl
  | cons c cs =>
    split
    · rename_i heq
      obtain ⟨rfl, rfl⟩ := List.cons.inj heq
      rfl
    · rename_i hother
      have hc : '\\' ≠ c := by
        rintro rfl
        exact hother cs rfl
      simp [Affix.dropHead?, hc]

/-- With the default tokens, affixes and escape, a document is read just when it has no more levels
than the limit, and no null, object, empty list or reference to an unknown type stands in it. -/
theorem exists_read_default_iff (ignored : IgnoredPaths) (limit : Nat) (x : Json) :
    (∃ e, { default with ignored := ignored, maxDepth := limit }.read x = .ok e) ↔
      x.height ≤ limit ∧
        ∀ part, x.Part dropBackslash part → ¬part.Refused Affix.default.format := by
  have ho : ReadableTokens { default with ignored := ignored, maxDepth := limit } :=
    readableTokens_of_default rfl rfl
  have hiff : (∃ e, readAt _ 0 x = .ok e) ↔ _ := exists_readAt_iff Affix.default.exact_format ho
  rwa [Nat.zero_add, unescape_eq_dropBackslash rfl] at hiff

end Options

end RuleLogic

import RuleLogic.Engine
import RuleLogic.Proofs.Finite
import RuleLogic.Proofs.RoundTrip

/-! Documents that are read, written and read again. What was read is built and as high as the depth
limit allows, and all of its leaves are storable. Only a head that still looks escaped after it was
unescaped makes the second reading differ. -/
namespace RuleLogic

open RuleLogic.Expr

/-- Whether two or more items are headed by a string that starts with the escape twice over. -/
def Json.HeadTwiceEscaped (escape : String) : List Json → Prop
  | .string head :: _ :: _ => (escape ++ escape).toList <+: head.toList
  | _ => False

/-- A list inside has a head that is twice escaped. -/
inductive Json.TwiceEscaped (escape : String) : Json → Prop
  | head {items : List Json} : HeadTwiceEscaped escape items → TwiceEscaped escape (.array items)
  | item {items : List Json} {x : Json} :
      x ∈ items → TwiceEscaped escape x → TwiceEscaped escape (.array items)

theorem Json.not_twiceEscaped_array {escape : String} {items : List Json} :
    ¬(array items).TwiceEscaped escape ↔
      ¬HeadTwiceEscaped escape items ∧ ∀ x ∈ items, ¬x.TwiceEscaped escape := by
  constructor
  · exact fun h => ⟨fun hhead => h (.head hhead), fun x hx hin => h (.item hx hin)⟩
  · rintro ⟨hhead, hitems⟩ (h | ⟨hx, h⟩)
    · exact hhead h
    · exact hitems _ hx h

namespace Options

variable {o : Options} {depth : Nat} {x : Json} {e : Expr}

theorem built_of_readString {s : String} (h : o.readString s = .ok e) : Built o e := by
  rcases readString_eq_ok_iff.1 h with ⟨_, rfl⟩ | ⟨address, r, _, hr, rfl⟩
  · exact .literal _
  · exact .reference hr

theorem built_of_readAt (h : o.readAt depth x = .ok e) : Built o e := by
  refine readAt_induction (motive := fun _ _ e => Built o e) ?boolean ?number ?string ?operator
    ?collection h
  case boolean => exact fun _ b _ => .literal (.boolean b)
  case number => exact fun _ n _ => .literal (.ofNumber n)
  case string => exact fun _ s e _ h => built_of_readString h
  case operator =>
    intro depth head rest op operands _ _ ha hoperands
    exact .operator (forall_mem_of_forall₂ hoperands) (build_eq_ok_iff.2 ⟨ha, rfl⟩)
  case collection =>
    intro depth head rest first items _ _ _ hfirst hitems
    have hall := List.forall_mem_cons.2 ⟨hfirst, forall_mem_of_forall₂ hitems⟩
    exact .collection hall (collect_eq_ok_iff.2 ⟨by simp, rfl⟩)

theorem height_of_readString {s : String} (h : o.readString s = .ok e) : e.height = 1 := by
  rcases readString_eq_ok_iff.1 h with ⟨_, rfl⟩ | ⟨address, r, _, _, rfl⟩ <;> rfl

theorem height_of_readAt (h : o.readAt depth x = .ok e) : depth + e.height ≤ o.maxDepth := by
  refine readAt_induction (motive := fun depth _ e => depth + e.height ≤ o.maxDepth) ?boolean
    ?number ?string ?operator ?collection h
  case boolean => exact fun depth b hd => hd
  case number => exact fun depth n hd => hd
  case string =>
    intro depth s e hd h
    rw [height_of_readString h]
    exact hd
  case operator =>
    intro depth head rest op operands hd _ _ hoperands
    rw [height_apply]
    exact fits_of_forall_mem hd (forall_mem_of_forall₂ hoperands)
  case collection =>
    intro depth head rest first items hd _ _ hfirst hitems
    exact fits_of_forall_mem hd
      (List.forall_mem_cons.2 ⟨hfirst, forall_mem_of_forall₂ hitems⟩)

theorem all_of_readAt {P : Expr → Prop} (hboolean : ∀ b, P (literal (.boolean b)))
    (hnumber : ∀ n, P (literal (.ofNumber n))) (hstring : ∀ s e, o.readString s = .ok e → P e)
    (happly : ∀ head rest op operands, o.headOf head rest = .operator op →
      P (apply o op operands))
    (hcollection : ∀ items, P (collection items o)) (h : o.readAt depth x = .ok e) : e.All P := by
  refine readAt_induction (motive := fun _ _ e => e.All P) ?boolean ?number ?string ?operator
    ?collection h
  case boolean => exact fun _ b _ => all_literal.2 (hboolean b)
  case number => exact fun _ n _ => all_literal.2 (hnumber n)
  case string =>
    intro _ s e _ h
    have he := hstring s e h
    rcases readString_eq_ok_iff.1 h with ⟨-, rfl⟩ | ⟨_, r, -, -, rfl⟩
    · exact all_literal.2 he
    · exact all_reference.2 he
  case operator =>
    intro _ head rest op operands _ hop _ hoperands
    exact all_apply.2 ⟨happly head rest op operands hop, forall_mem_of_forall₂ hoperands⟩
  case collection =>
    intro _ head rest first items _ _ _ hfirst hitems
    refine all_collection.2 ⟨hcollection _, ?_⟩
    exact List.forall_mem_cons.2 ⟨hfirst, forall_mem_of_forall₂ hitems⟩

theorem storableLeaf_literal_ofNumber (n : Number) : StorableLeaf o (literal (.ofNumber n)) := by
  cases hn : Literal.ofNumber n with
  | float x => exact Literal.isFinite_of_ofNumber hn
  | string s => cases n <;> contradiction
  | _ => trivial

theorem storableLeaf_of_readString (ho : o.affix.Exact) {s : String} (h : o.readString s = .ok e) :
    e.StorableLeaf o := by
  rcases readString_eq_ok_iff.1 h with ⟨hs, rfl⟩ | ⟨address, r, hs, hr, rfl⟩
  · exact hs
  · have hne := ((ho s address).1 hs).1
    rwa [← (Reference.ofAddress_eq_ok hr).1] at hne

theorem leaves_of_readAt (ho : o.affix.Exact) (h : o.readAt depth x = .ok e) :
    e.All (StorableLeaf o) :=
  all_of_readAt (fun _ => trivial) storableLeaf_literal_ofNumber
    (fun _ _ => storableLeaf_of_readString ho) (fun _ _ op _ _ => storableLeaf_apply op)
    (fun _ => trivial) h

theorem heads_of_readString {s : String} (h : o.readString s = .ok e) :
    e.All fun p => ¬p.HeadEscaped o := by
  rcases readString_eq_ok_iff.1 h with ⟨_, rfl⟩ | ⟨_, r, _, _, rfl⟩
  · exact all_literal.2 id
  · exact all_reference.2 id

theorem eq_string_of_readAt (ho : o.affix.Exact) {s : String} (h : o.readAt depth x = .ok e)
    (hs : e.toJson = .string s) : x = .string s := by
  revert hs
  refine readAt_induction (motive := fun _ x e => e.toJson = .string s → x = .string s) ?boolean
    ?number ?string ?operator ?collection h
  case boolean => exact fun _ b _ hs => nomatch hs
  case number =>
    intro _ n _ hs
    obtain ⟨m, hm⟩ := Literal.exists_toJson_ofNumber n
    rw [Expr.toJson, hm] at hs
    contradiction
  case string =>
    intro _ t e _ h hs
    rw [← toJson_of_readString ho h, hs]
  case operator =>
    intro _ head rest op operands _ _ _ _ hs
    rw [toJson_apply] at hs
    contradiction
  case collection =>
    intro _ head rest first items _ _ _ _ _ hs
    contradiction

theorem toJson_of_readAt_string (ho : o.affix.Exact) {s : String}
    (h : o.readAt depth (.string s) = .ok e) : e.toJson = .string s :=
  toJson_of_readString ho (readAt_string (lt_of_readAt h) s ▸ h)

theorem headEscaped_iff_headTwiceEscaped (ho : o.escape ≠ "") (haffix : o.affix.Exact)
    {head : Json} {rest : List Json} {first : Expr} {items : List Expr}
    (hlength : rest.length = items.length)
    (hfirst : o.readAt depth ((o.headOf head rest).source head) = .ok first) :
    (collection (first :: items) o).HeadEscaped o ↔
      Json.HeadTwiceEscaped o.escape (head :: rest) := by
  cases rest with
  | nil =>
    obtain rfl := List.length_eq_zero_iff.1 hlength.symm
    simp [HeadEscaped, Json.HeadTwiceEscaped]
  | cons second rest =>
    obtain ⟨item, items, rfl⟩ := List.exists_cons_of_length_eq_add_one hlength.symm
    have hwritten : ∀ s, first.toJson = .string s →
        ((collection (first :: item :: items) o).HeadEscaped o ↔ o.escape.toList <+: s.toList) := by
      intro s hs
      simp [HeadEscaped, hs]
    cases head with
    | string t =>
      rw [headOf_string (List.cons_ne_nil _ _)] at hfirst
      rw [Json.HeadTwiceEscaped, String.toList_append]
      cases hu : o.unescape? t with
      | some s =>
        rw [hu] at hfirst
        rw [hwritten s (toJson_of_readAt_string haffix hfirst), (unescape?_eq_some_iff ho).1 hu,
          escaped, String.toList_append, List.prefix_append_right_inj]
      | none =>
        rw [hu] at hfirst
        have hno := (unescape?_eq_none_iff ho).1 hu
        have hsource : o.readAt depth (.string t) = .ok first := by
          cases hl : o.operators.lookup t <;> simpa [hl, Head.source] using hfirst
        rw [hwritten t (toJson_of_readAt_string haffix hsource)]
        exact iff_of_false hno fun h => hno ((List.prefix_append _ _).trans h)
    | _ =>
      simp only [headOf, Head.source] at hfirst
      refine iff_of_false ?_ id
      rintro ⟨s, hs, _⟩
      cases eq_string_of_readAt haffix hfirst hs

theorem exists_of_headOf_escaped {head : Json} {rest : List Json} {s : String}
    (h : o.headOf head rest = .escaped s) : ∃ t, head = .string t := by
  cases head with
  | string t => exact ⟨t, rfl⟩
  | _ => cases rest <;> simp [headOf] at h

theorem twiceEscaped_source (escape : String) (head : Json) (rest : List Json) :
    ((o.headOf head rest).source head).TwiceEscaped escape ↔ head.TwiceEscaped escape := by
  cases hh : o.headOf head rest with
  | escaped s =>
    obtain ⟨t, rfl⟩ := exists_of_headOf_escaped hh
    exact iff_of_false nofun nofun
  | _ => rfl

theorem exists_of_headOf_operator {head : Json} {rest : List Json} {op : Operator}
    (h : o.headOf head rest = .operator op) :
    rest ≠ [] ∧ ∃ s, head = .string s ∧ o.unescape? s = none ∧
      o.operators.lookup s = some op := by
  cases rest with
  | nil => simp [headOf] at h
  | cons second rest =>
    refine ⟨List.cons_ne_nil _ _, ?_⟩
    cases head with
    | string s =>
      rw [headOf_string (List.cons_ne_nil _ _)] at h
      cases hu : o.unescape? s with
      | some t => simp [hu] at h
      | none =>
        cases hl : o.operators.lookup s with
        | none => simp [hu, hl] at h
        | some owner =>
          obtain rfl : owner = op := by simpa [hu, hl] using h
          exact ⟨s, rfl, hu, hl⟩
    | _ => simp [headOf] at h

theorem heads_iff_of_readAt (ho : o.escape ≠ "") (haffix : o.affix.Exact)
    (h : o.readAt depth x = .ok e) :
    (e.All fun p => ¬p.HeadEscaped o) ↔ ¬x.TwiceEscaped o.escape := by
  refine readAt_induction
    (motive := fun _ x e => (e.All fun p => ¬p.HeadEscaped o) ↔ ¬x.TwiceEscaped o.escape)
    ?boolean ?number ?string ?operator ?collection h
  case boolean => exact fun _ b _ => iff_of_true (all_literal.2 id) nofun
  case number => exact fun _ n _ => iff_of_true (all_literal.2 id) nofun
  case string => exact fun _ s e _ h => iff_of_true (heads_of_readString h) nofun
  case operator =>
    intro _ head rest op operands _ hop _ hoperands
    -- a token that heads operands has no escape, so it has not two of them
    obtain ⟨-, s, rfl, hs, -⟩ := exists_of_headOf_operator hop
    have hno := (unescape?_eq_none_iff ho).1 hs
    have hhead : ¬Json.HeadTwiceEscaped o.escape (.string s :: rest) := by
      cases rest with
      | nil => exact id
      | cons second rest =>
        rw [Json.HeadTwiceEscaped, String.toList_append]
        exact fun h => hno ((List.prefix_append _ _).trans h)
    rw [all_apply, Json.not_twiceEscaped_array, List.forall_mem_cons,
      forall_mem_iff_of_forall₂ (hoperands.imp fun _ _ => Iff.symm)]
    exact and_congr (iff_of_true (not_headEscaped_apply op) hhead) (iff_and_self.2 fun _ => nofun)
  case collection =>
    intro _ head rest first items _ _ hread hfirst hitems
    rw [all_collection, Json.not_twiceEscaped_array, List.forall_mem_cons, List.forall_mem_cons,
      headEscaped_iff_headTwiceEscaped ho haffix hitems.length_eq hread, hfirst,
      twiceEscaped_source, forall_mem_iff_of_forall₂ (hitems.imp fun _ _ => Iff.symm)]

/-- No string that may head an expression looks escaped. -/
def Separated (o : Options) : Prop :=
  ∀ s, o.operators.isReserved s = true → ¬o.escape.toList <+: s.toList

theorem escaped_ne_self (ho : o.escape ≠ "") (s : String) : o.escaped s ≠ s := by
  intro h
  rw [escaped, String.append_eq_right_iff] at h
  exact ho h

theorem not_headEscaped_of_readAt_toJson (ho : o.Legible) (hr : o.Separated) {items : List Expr}
    (h : o.readAt depth (collection items o).toJson = .ok (collection items o)) :
    ¬(collection items o).HeadEscaped o := by
  match items with
  | [] => exact id
  | [_] => exact id
  | first :: second :: rest =>
    rintro ⟨s, hs, hprefix⟩
    have hfree : o.operators.isReserved s = false := by
      cases hreserved : o.operators.isReserved s with
      | true => exact absurd hprefix (hr s hreserved)
      | false => rfl
    -- read again, the first item is the string without its escape
    obtain ⟨t, ht⟩ : ∃ t, o.unescape? s = some t := by
      cases hu : o.unescape? s with
      | some t => exact ⟨t, rfl⟩
      | none => exact absurd hprefix ((unescape?_eq_none_iff ho.escapes).1 hu)
    rw [Expr.toJson, toJsons, toJsons, hs, escapeHead, hfree, if_neg Bool.false_ne_true,
      readAt_array_eq_ok_iff, headOf_string (List.cons_ne_nil _ _), ht] at h
    obtain ⟨-, ⟨op, _, hop, _⟩ | ⟨_, _, -, hread, -, hitems⟩⟩ := h
    · contradiction
    · obtain ⟨rfl, -⟩ := List.cons.inj (Expr.collection.inj hitems).1
      have hsame := hs.symm.trans (toJson_of_readAt_string ho.exact hread)
      rw [Json.string.inj hsame] at ht
      exact escaped_ne_self ho.escapes t ((unescape?_eq_some_iff ho.escapes).1 ht).symm

theorem heads_of_readAt_toJson (ho : o.Legible) (hr : o.Separated) (hb : Built o e)
    (h : o.readAt depth e.toJson = .ok e) :
    e.All fun p => ¬p.HeadEscaped o := by
  induction hb generalizing depth with
  | literal l => exact all_literal.2 id
  | reference hr => exact all_reference.2 id
  | collection hitems he ih =>
    obtain ⟨hne, rfl⟩ := collect_eq_ok_iff.1 he
    have hhead := not_headEscaped_of_readAt_toJson ho hr h
    have hread := (readAt_toJson_collection ho.escapes hne hhead).1 h
    exact all_collection.2 ⟨hhead, fun item hitem => ih item hitem (hread.2 item hitem)⟩
  | @operator op operands e hoperands he ih =>
    obtain ⟨ha, rfl⟩ := build_eq_ok_iff.1 he
    obtain ⟨-, -, hread⟩ := (readAt_toJson_apply_iff ho.escapes op ha).1 h
    exact all_apply.2 ⟨not_headEscaped_apply op, fun e he => ih e he (hread e he)⟩
  | @negation e he ih =>
    obtain ⟨-, -, hread⟩ := (readAt_toJson_apply_iff ho.escapes (.logical .not) rfl).1 h
    have hall := ih (hread e (List.mem_singleton_self e))
    exact all_apply.2
      ⟨not_headEscaped_apply (.logical .not), List.forall_mem_singleton.2 hall⟩

/-- What was read is read again unless a head of its document is twice escaped. -/
theorem readAt_toJson_iff (ho : o.Legible) (hr : o.Separated)
    (h : o.readAt depth x = .ok e) :
    o.readAt depth e.toJson = .ok e ↔ ¬x.TwiceEscaped o.escape := by
  rw [← heads_iff_of_readAt ho.escapes ho.exact h]
  constructor
  · exact heads_of_readAt_toJson ho hr (built_of_readAt h)
  · intro hheads
    exact readAt_toJson ho (built_of_readAt h) ⟨leaves_of_readAt ho.exact h, hheads⟩
      (height_of_readAt h)

theorem separated_default : default.Separated := by
  intro s hs
  obtain ⟨op, hop⟩ := Option.isSome_iff_exists.1 hs
  obtain rfl := TokenTable.lookup_default_eq_some_iff.1 hop
  exact legible_default.unescaped op

end Options

namespace Engine

theorem read_eq_ok_iff {engine : Engine} {x : Json} {n : Expr} :
    engine.read x = .ok n ↔ engine.options.read x = .ok n := by
  unfold read
  cases engine.options.read x <;> simp

/-- A document gives the same expression again after it was written, unless two backslashes head a
list of two or more items inside of it: reading takes one of them off, and writing does not put it
back. -/
theorem read_toJson_iff {x : Json} {n : Expr} (h : default.read x = .ok n) :
    default.read n.toJson = .ok n ↔ ¬x.TwiceEscaped Options.defaultEscape := by
  rw [read_eq_ok_iff] at h ⊢
  exact Options.readAt_toJson_iff Options.legible_default Options.separated_default h

def escapedOnce : Json :=
  .array [.string "\\==", .number (.integer 1), .array [.string "\\\\x"]]

def listedOnce : Expr :=
  .collection
    [.literal (.string "=="), .literal (.integer 1),
      .collection [.literal (.string "\\\\x")] .default]
    .default

theorem not_twiceEscaped_escapedOnce : ¬escapedOnce.TwiceEscaped Options.defaultEscape := by
  refine Json.not_twiceEscaped_array.2 ⟨?_, ?_⟩
  · rw [Json.HeadTwiceEscaped]
    decide
  · have hinner : ¬(Json.array [.string "\\\\x"]).TwiceEscaped Options.defaultEscape := by
      refine Json.not_twiceEscaped_array.2 ⟨id, ?_⟩
      exact List.forall_mem_singleton.2 nofun
    simp only [List.forall_mem_cons]
    exact ⟨nofun, nofun, hinner, nofun⟩

theorem read_toJson_listedOnce : default.read listedOnce.toJson = .ok listedOnce :=
  (read_toJson_iff (rfl : default.read escapedOnce = .ok listedOnce)).2
    not_twiceEscaped_escapedOnce

def escapedTwice : Json := .array [.string "\\\\x", .number (.integer 1)]

def listedTwice : Expr := .collection [.literal (.string "\\x"), .literal (.integer 1)] .default

theorem read_toJson_listedTwice :
    default.read escapedTwice = .ok listedTwice ∧
      default.read listedTwice.toJson ≠ .ok listedTwice := by
  refine ⟨rfl, fun h => ?_⟩
  have hread : default.read listedTwice.toJson =
      .ok (.collection [.literal (.string "x"), .literal (.integer 1)] .default) := rfl
  rw [hread] at h
  simp [listedTwice] at h

end Engine

end RuleLogic

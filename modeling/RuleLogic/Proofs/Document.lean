import RuleLogic.Context
import Mathlib.Data.List.Nodup
import Mathlib.Tactic.Common

/-! Documents by their positions. Induction gives the hypothesis for every item of a list and every
member of an object. A position is named by the steps that lead to it from the root, and `scalars`
lists the scalars with their positions from left to right, each position once where no object has
a key twice. -/
namespace RuleLogic

inductive Step where
  | member (key : String)
  | item (index : Nat)
deriving DecidableEq, Repr

namespace Json

@[elab_as_elim]
theorem induction {motive : Json → Prop}
    (null : motive .null)
    (boolean : ∀ b, motive (.boolean b))
    (number : ∀ n, motive (.number n))
    (string : ∀ s, motive (.string s))
    (array : ∀ items, (∀ x ∈ items, motive x) → motive (.array items))
    (object : ∀ members, (∀ e ∈ members, motive e.2) → motive (.object members)) :
    ∀ x, motive x
  | .null => null
  | .boolean b => boolean b
  | .number n => number n
  | .string s => string s
  | .array items => array items fun x _ => induction null boolean number string array object x
  | .object members => object members fun e he =>
      have : sizeOf e.2 < sizeOf members := by
        have hsize := List.sizeOf_lt_of_mem he
        rw [Prod.mk.sizeOf_spec e.1 e.2] at hsize
        omega
      induction null boolean number string array object e.2

/-- What stands at a position of a document. -/
inductive At : Json → List Step → Json → Prop
  | root (x : Json) : At x [] x
  | member {members : List (String × Json)} {key : String} {x y : Json} {steps : List Step} :
      (key, x) ∈ members → At x steps y → At (.object members) (.member key :: steps) y
  | item {items : List Json} {index : Nat} {x y : Json} {steps : List Step} :
      items[index]? = some x → At x steps y → At (.array items) (.item index :: steps) y

/-- The value that a scalar stands for. A number that is no 64-bit integer counts as a double. -/
inductive Denotes : Json → Value → Prop
  | boolean (b : Bool) : Denotes (.boolean b) (.boolean b)
  | string (s : String) : Denotes (.string s) (.string s)
  | integer (n : Int64) : Denotes (.number (.integer n)) (.integer n)
  | large (n : UInt64) : Denotes (.number (.large n)) (.float (.ofInt n.toNat))
  | double (x : Double) (finite : x.isFinite = true) :
      Denotes (.number (.double x finite)) (.float x)

theorem ofScalar?_eq_some_iff {x : Json} {v : Value} :
    Value.ofScalar? x = some v ↔ x.Denotes v := by
  constructor
  · intro h
    cases x with
    | boolean b =>
      obtain rfl := Option.some.inj h
      exact .boolean b
    | string s =>
      obtain rfl := Option.some.inj h
      exact .string s
    | number n =>
      obtain rfl := Option.some.inj h
      cases n with
      | integer n => exact .integer n
      | large n => exact .large n
      | double x finite => exact .double x finite
    | _ => contradiction
  · rintro (_ | _ | _ | _ | _) <;> rfl

def Holds (c : Json) (steps : List Step) (v : Value) : Prop := ∃ x, c.At steps x ∧ x.Denotes v

theorem holds_object_iff {members : List (String × Json)} {steps : List Step} {v : Value} :
    (object members).Holds steps v ↔
      ∃ e ∈ members, ∃ rest, steps = .member e.1 :: rest ∧ e.2.Holds rest v := by
  constructor
  · rintro ⟨y, _ | ⟨hx, hy⟩ | _, hv⟩
    · contradiction
    · exact ⟨_, hx, _, rfl, y, hy, hv⟩
  · rintro ⟨e, he, rest, rfl, y, hy, hv⟩
    exact ⟨y, .member he hy, hv⟩

theorem holds_array_iff {items : List Json} {steps : List Step} {v : Value} :
    (array items).Holds steps v ↔
      ∃ index x, items[index]? = some x ∧ ∃ rest, steps = .item index :: rest ∧
        x.Holds rest v := by
  constructor
  · rintro ⟨y, _ | _ | ⟨hx, hy⟩, hv⟩
    · contradiction
    · exact ⟨_, _, hx, _, rfl, y, hy, hv⟩
  · rintro ⟨index, x, hx, rest, rfl, y, hy, hv⟩
    exact ⟨y, .item hx hy, hv⟩

theorem ne_nil_of_holds {c : Json} {steps : List Step} {v : Value}
    (hc : ∀ v, ¬c.Denotes v) (h : c.Holds steps v) : steps ≠ [] := by
  rintro rfl
  obtain ⟨y, ⟨⟩, hv⟩ := h
  exact hc v hv

mutual

def scalars : Json → List (List Step × Value)
  | null => []
  | boolean b => [([], .boolean b)]
  | string s => [([], .string s)]
  | number (.integer n) => [([], .integer n)]
  | number (.large n) => [([], .float (.ofInt n.toNat))]
  | number (.double x _) => [([], .float x)]
  | array items => itemScalars 0 items
  | object members => memberScalars members

def memberScalars : List (String × Json) → List (List Step × Value)
  | [] => []
  | (key, x) :: rest => x.scalars.map (fun s => (.member key :: s.1, s.2)) ++ memberScalars rest

def itemScalars (index : Nat) : List Json → List (List Step × Value)
  | [] => []
  | x :: rest =>
    x.scalars.map (fun s => (.item index :: s.1, s.2)) ++ itemScalars (index + 1) rest

end

theorem scalars_leaf {x : Json} (harray : ∀ items, x ≠ .array items)
    (hobject : ∀ members, x ≠ .object members) :
    x.scalars = ((Value.ofScalar? x).map fun v => ([], v)).toList := by
  cases x with
  | number n => cases n <;> rfl
  | array items => exact absurd rfl (harray items)
  | object members => exact absurd rfl (hobject members)
  | _ => rfl

theorem mem_memberScalars {members : List (String × Json)} {s : List Step × Value} :
    s ∈ memberScalars members ↔
      ∃ e ∈ members, ∃ t ∈ e.2.scalars, (.member e.1 :: t.1, t.2) = s := by
  induction members with
  | nil => simp [memberScalars]
  | cons e rest ih =>
    rw [memberScalars, List.mem_append, List.mem_map, ih, List.exists_mem_cons_iff]

theorem mem_itemScalars {items : List Json} {first : Nat} {s : List Step × Value} :
    s ∈ itemScalars first items ↔
      ∃ index x, items[index]? = some x ∧
        ∃ t ∈ x.scalars, (.item (first + index) :: t.1, t.2) = s := by
  induction items generalizing first with
  | nil => simp [itemScalars]
  | cons x rest ih =>
    rw [itemScalars, List.mem_append, List.mem_map, ih]
    constructor
    · rintro (⟨t, ht, rfl⟩ | ⟨index, y, hy, t, ht, rfl⟩)
      · exact ⟨0, x, rfl, t, ht, rfl⟩
      · exact ⟨index + 1, y, hy, t, ht, by rw [Nat.add_right_comm, Nat.add_assoc]⟩
    · rintro ⟨index, y, hy, t, ht, rfl⟩
      cases index with
      | zero =>
        obtain rfl := Option.some.inj hy
        exact .inl ⟨t, ht, rfl⟩
      | succ index =>
        exact .inr ⟨index, y, hy, t, ht, by rw [Nat.add_right_comm, Nat.add_assoc]⟩

theorem mem_scalars_iff {c : Json} {s : List Step × Value} :
    s ∈ c.scalars ↔ c.Holds s.1 s.2 := by
  obtain ⟨steps, v⟩ := s
  induction c using Json.induction generalizing steps with
  | array items ih =>
    rw [scalars, mem_itemScalars, holds_array_iff]
    refine exists_congr fun index => exists_congr fun x => and_congr_right fun hx => ?_
    rw [Nat.zero_add]
    constructor
    · rintro ⟨t, ht, heq⟩
      obtain ⟨rfl, rfl⟩ := Prod.mk.inj heq
      exact ⟨t.1, rfl, (ih x (List.mem_of_getElem? hx) t.1).1 ht⟩
    · rintro ⟨rest, rfl, hrest⟩
      exact ⟨(rest, v), (ih x (List.mem_of_getElem? hx) rest).2 hrest, rfl⟩
  | object members ih =>
    rw [scalars, mem_memberScalars, holds_object_iff]
    refine exists_congr fun e => and_congr_right fun he => ?_
    constructor
    · rintro ⟨t, ht, heq⟩
      obtain ⟨rfl, rfl⟩ := Prod.mk.inj heq
      exact ⟨t.1, rfl, (ih e he t.1).1 ht⟩
    · rintro ⟨rest, rfl, hrest⟩
      exact ⟨(rest, v), (ih e he rest).2 hrest, rfl⟩
  | _ =>
    rw [scalars_leaf (by nofun) (by nofun)]
    simp only [Option.mem_toList, Option.map_eq_some_iff, ofScalar?_eq_some_iff, Prod.mk.injEq]
    constructor
    · rintro ⟨w, hw, rfl, rfl⟩
      exact ⟨_, .root _, hw⟩
    · rintro ⟨y, ⟨⟩, hv⟩
      exact ⟨v, hv, rfl, rfl⟩

def KeysAll (P : List String → Prop) (c : Json) : Prop :=
  ∀ steps members, c.At steps (.object members) → P (Entries.names members)

variable {P : List String → Prop}

theorem keysAll_object_iff {members : List (String × Json)} :
    (object members).KeysAll P ↔
      P (Entries.names members) ∧ ∀ e ∈ members, e.2.KeysAll P := by
  constructor
  · intro h
    exact ⟨h [] members (.root _), fun e he steps ms hms => h _ ms (.member he hms)⟩
  · rintro ⟨hself, hmembers⟩ steps ms (_ | ⟨hx, hms⟩)
    · exact hself
    · exact hmembers _ hx _ ms hms

theorem keysAll_array_iff {items : List Json} :
    (array items).KeysAll P ↔ ∀ x ∈ items, x.KeysAll P := by
  constructor
  · intro h x hx steps ms hms
    obtain ⟨index, hindex⟩ := List.getElem?_of_mem hx
    exact h _ ms (.item hindex hms)
  · rintro hitems steps ms (_ | _ | ⟨hx, hms⟩)
    exact hitems _ (List.mem_of_getElem? hx) _ ms hms

theorem nodup_cons_scalars {c : Json} (h : (c.scalars.map Prod.fst).Nodup) (step : Step) :
    ((c.scalars.map fun s => (step :: s.1, s.2)).map Prod.fst).Nodup := by
  rw [List.map_map]
  have hmap : Prod.fst ∘ (fun s : List Step × Value => (step :: s.1, s.2)) =
      List.cons step ∘ Prod.fst := rfl
  rw [hmap, ← List.map_map]
  exact h.map (List.cons_injective)

theorem nodup_memberScalars {members : List (String × Json)}
    (hkeys : (Entries.names members).Nodup)
    (h : ∀ e ∈ members, (e.2.scalars.map Prod.fst).Nodup) :
    ((memberScalars members).map Prod.fst).Nodup := by
  induction members with
  | nil => exact .nil
  | cons e rest ih =>
    obtain ⟨hkey, hkeys⟩ := List.nodup_cons.1 hkeys
    obtain ⟨hx, hrest⟩ := List.forall_mem_cons.1 h
    rw [memberScalars, List.map_append]
    refine List.Nodup.append (nodup_cons_scalars hx _) (ih hkeys hrest) ?_
    intro steps hfirst hothers
    obtain ⟨s, hs, rfl⟩ := List.mem_map.1 hfirst
    obtain ⟨t, -, rfl⟩ := List.mem_map.1 hs
    obtain ⟨s', hs', heq⟩ := List.mem_map.1 hothers
    obtain ⟨e', he', t', -, rfl⟩ := mem_memberScalars.1 hs'
    obtain ⟨hstep, -⟩ := List.cons.inj heq
    exact hkey (Step.member.inj hstep ▸ List.mem_map_of_mem he')

theorem nodup_itemScalars {items : List Json} {first : Nat}
    (h : ∀ x ∈ items, (x.scalars.map Prod.fst).Nodup) :
    ((itemScalars first items).map Prod.fst).Nodup := by
  induction items generalizing first with
  | nil => exact .nil
  | cons x rest ih =>
    obtain ⟨hx, hrest⟩ := List.forall_mem_cons.1 h
    rw [itemScalars, List.map_append]
    refine List.Nodup.append (nodup_cons_scalars hx _) (ih hrest) ?_
    intro steps hfirst hothers
    obtain ⟨s, hs, rfl⟩ := List.mem_map.1 hfirst
    obtain ⟨t, -, rfl⟩ := List.mem_map.1 hs
    obtain ⟨s', hs', heq⟩ := List.mem_map.1 hothers
    obtain ⟨index, y, -, t', -, rfl⟩ := mem_itemScalars.1 hs'
    have hindex := Step.item.inj (List.cons.inj heq).1
    omega

/-- No position comes twice in a document whose objects have no key twice. -/
theorem nodup_scalars {c : Json} (h : c.KeysAll List.Nodup) : (c.scalars.map Prod.fst).Nodup := by
  induction c using Json.induction with
  | array items ih =>
    rw [keysAll_array_iff] at h
    exact nodup_itemScalars fun x hx => ih x hx (h x hx)
  | object members ih =>
    obtain ⟨hkeys, hmembers⟩ := keysAll_object_iff.1 h
    exact nodup_memberScalars hkeys fun e he => ih e he (hmembers e he)
  | null => exact .nil
  | boolean b => exact List.nodup_singleton _
  | number n => cases n <;> exact List.nodup_singleton _
  | string s => exact List.nodup_singleton _

end Json

end RuleLogic

import RuleLogic.Proofs.Flattening

/-! Flattening as one traversal that inserts each scalar as it comes to it. The entries are those of
the list of leaves: every path once, where it first comes, with the value that it has last. What
holds no leaf takes no part, so other data of that kind in its place changes nothing. -/
namespace RuleLogic

namespace Entries

variable {α : Type}

theorem names_foldl_put (entries pairs : List (String × α)) :
    names (pairs.foldl (fun es e => put e.1 e.2 es) entries) =
      names entries ++ ((names pairs).filter fun n => !(names entries).contains n).eraseDups := by
  induction pairs generalizing entries with
  | nil => simp
  | cons e rest ih =>
    rw [List.foldl_cons, ih, names_put, names_cons]
    by_cases h : e.1 ∈ names entries
    · simp [h]
    · have hkeep : ((names rest).filter fun n => !(names entries ++ [e.1]).contains n) =
          ((names rest).filter fun n => !(names entries).contains n).filter fun n => !n == e.1 := by
        rw [List.filter_filter]
        refine List.filter_congr fun n _ => Bool.eq_iff_iff.2 ?_
        simp [and_comm]
      rw [if_neg h, List.filter_cons_of_pos (by simpa using h), List.eraseDups_cons, hkeep]
      simp

theorem names_ofPairs (pairs : List (String × α)) :
    names (ofPairs pairs) = (names pairs).eraseDups := by
  rw [ofPairs_eq_foldl, names_foldl_put]
  simp

theorem last?_eq_lookup_reverse (name : String) (pairs : List (String × α)) :
    last? name pairs = pairs.reverse.lookup name := by
  induction pairs with
  | nil => rfl
  | cons e rest ih =>
    rw [last?, ih, List.reverse_cons, List.lookup_append, lookup_cons]
    simp [eq_comm]

end Entries

namespace Context

mutual

def flattenInto (c : Context) (path : String) (depth : Nat) (data : Json) : Context :=
  if maxDepth < depth then c
  else match data with
    | .object members => flattenMembers c path (depth + 1) members
    | .array items => flattenItems c path (depth + 1) 0 items
    | scalar =>
      match Value.ofScalar? scalar with
      | some v => c.insert path v
      | none => c

def flattenMembers (c : Context) (path : String) (depth : Nat) : List (String × Json) → Context
  | [] => c
  | (key, data) :: rest =>
    flattenMembers (flattenInto c (memberPath path key) depth data) path depth rest

def flattenItems (c : Context) (path : String) (depth index : Nat) : List Json → Context
  | [] => c
  | data :: rest =>
    flattenItems (flattenInto c (itemPath path index) depth data) path depth (index + 1) rest

end

def insertAll (c : Context) (pairs : List (String × Value)) : Context :=
  pairs.foldl (fun c e => c.insert e.1 e.2) c

theorem insertAll_append (c : Context) (xs ys : List (String × Value)) :
    c.insertAll (xs ++ ys) = (c.insertAll xs).insertAll ys :=
  List.foldl_append

theorem flattenMembers_eq {members : List (String × Json)}
    (h : ∀ e ∈ members, ∀ c path depth,
      flattenInto c path depth e.2 = c.insertAll (leaves path depth e.2))
    (c : Context) (path : String) (depth : Nat) :
    flattenMembers c path depth members = c.insertAll (memberLeaves path depth members) := by
  induction members generalizing c with
  | nil => rfl
  | cons e rest ih =>
    obtain ⟨he, hrest⟩ := List.forall_mem_cons.1 h
    rw [flattenMembers, memberLeaves, insertAll_append, he, ih hrest]

theorem flattenItems_eq {items : List Json}
    (h : ∀ x ∈ items, ∀ c path depth,
      flattenInto c path depth x = c.insertAll (leaves path depth x))
    (c : Context) (path : String) (depth index : Nat) :
    flattenItems c path depth index items = c.insertAll (itemLeaves path depth index items) := by
  induction items generalizing c index with
  | nil => rfl
  | cons x rest ih =>
    obtain ⟨hx, hrest⟩ := List.forall_mem_cons.1 h
    rw [flattenItems, itemLeaves, insertAll_append, hx, ih hrest]

theorem flattenInto_eq (c : Context) (path : String) (depth : Nat) (data : Json) :
    flattenInto c path depth data = c.insertAll (leaves path depth data) := by
  induction data using Json.induction generalizing c path depth with
  | array items ih =>
    rw [flattenInto, leaves]
    split
    · rfl
    · exact flattenItems_eq ih c path (depth + 1) 0
  | object members ih =>
    rw [flattenInto, leaves]
    split
    · rfl
    · exact flattenMembers_eq ih c path (depth + 1)
  | _ =>
    by_cases hd : maxDepth < depth
    · simp [flattenInto, leaves, hd, insertAll]
    · simp [flattenInto, leaves, hd, insertAll, Value.ofScalar?]

def leafList (data : Json) : List (String × Value) :=
  (data.scalars.filter fun s => s.1.length ≤ 128).map fun s => (pathOf s.1, s.2)

theorem leaves_eq_leafList (data : Json) : leaves "" 0 data = leafList data := by
  rw [leaves_eq_place, place]
  simp only [Nat.zero_add]
  rfl

/-- What holds no leaf at a depth. -/
inductive Bare (depth : Nat) : Json → Prop
  | null : Bare depth .null
  | emptyArray : Bare depth (.array [])
  | emptyObject : Bare depth (.object [])
  | deep (x : Json) : 128 < depth → Bare depth x

/-- Two documents that are the same but for one bare part, the first of them at a depth. -/
inductive Varies : Nat → Json → Json → Prop
  | bare {depth : Nat} {x y : Json} : Bare depth x → Bare depth y → Varies depth x y
  | item {depth : Nat} {x y : Json} (before after : List Json) :
      Varies (depth + 1) x y →
        Varies depth (.array (before ++ x :: after)) (.array (before ++ y :: after))
  | member {depth : Nat} {x y : Json} (before : List (String × Json)) (key : String)
      (after : List (String × Json)) :
      Varies (depth + 1) x y →
        Varies depth (.object (before ++ (key, x) :: after)) (.object (before ++ (key, y) :: after))

theorem Bare.leaves_eq {depth : Nat} {x : Json} (h : Bare depth x) (path : String) :
    leaves path depth x = [] := by
  by_cases hd : maxDepth < depth
  · exact leaves_of_lt hd path x
  · cases h with
    | null => simp [leaves, hd, Value.ofScalar?]
    | emptyArray => rw [leaves, if_neg hd, itemLeaves]
    | emptyObject => rw [leaves, if_neg hd, memberLeaves]
    | deep _ hdeep => exact absurd hdeep hd

theorem itemLeaves_congr {x y : Json} {depth : Nat}
    (h : ∀ path, leaves path depth x = leaves path depth y) (path : String) (index : Nat)
    (before after : List Json) :
    itemLeaves path depth index (before ++ x :: after) =
      itemLeaves path depth index (before ++ y :: after) := by
  induction before generalizing index with
  | nil => rw [List.nil_append, List.nil_append, itemLeaves, itemLeaves, h]
  | cons z rest ih => rw [List.cons_append, List.cons_append, itemLeaves, itemLeaves, ih]

theorem memberLeaves_congr {x y : Json} {depth : Nat}
    (h : ∀ path, leaves path depth x = leaves path depth y) (path key : String)
    (before after : List (String × Json)) :
    memberLeaves path depth (before ++ (key, x) :: after) =
      memberLeaves path depth (before ++ (key, y) :: after) := by
  induction before with
  | nil => rw [List.nil_append, List.nil_append, memberLeaves, memberLeaves, h]
  | cons e rest ih => rw [List.cons_append, List.cons_append, memberLeaves, memberLeaves, ih]

theorem Varies.leaves_eq {depth : Nat} {x y : Json} (h : Varies depth x y) (path : String) :
    leaves path depth x = leaves path depth y := by
  induction h generalizing path with
  | bare hx hy => rw [hx.leaves_eq, hy.leaves_eq]
  | item before after _ ih =>
    rw [leaves, leaves]
    split
    · rfl
    · exact itemLeaves_congr ih path 0 before after
  | member before key after _ ih =>
    rw [leaves, leaves]
    split
    · rfl
    · exact memberLeaves_congr ih path key before after

theorem Varies.symm {depth : Nat} {x y : Json} (h : Varies depth x y) : Varies depth y x := by
  induction h with
  | bare hx hy => exact .bare hy hx
  | item before after _ ih => exact .item before after ih
  | member before key after _ ih => exact .member before key after ih

theorem Varies.ne_string {depth : Nat} {x y : Json} (h : Varies depth x y)
    (hdepth : depth ≤ 128) (s : String) : x ≠ .string s := by
  rintro rfl
  obtain ⟨hx, -⟩ | _ | _ := h
  obtain _ | _ | _ | ⟨-, hdeep⟩ := hx
  omega

theorem isMarked_congr {x y : Json} (hx : ∀ s, x ≠ .string s) (hy : ∀ s, y ≠ .string s)
    (key : String) (before after : List (String × Json)) :
    isMarked (before ++ (key, x) :: after) = isMarked (before ++ (key, y) :: after) := by
  have hplain : ∀ z : Json, (∀ s, z ≠ .string s) → isMarked [(marker, z)] = false := by
    intro z hz
    cases z with
    | string s => exact absurd rfl (hz s)
    | _ => rfl
  simp only [isMarked, List.lookup_append, Entries.lookup_cons] at hplain ⊢
  cases before.lookup marker with
  | some data => rfl
  | none =>
    by_cases hkey : marker = key
    · simpa [hkey] using (hplain x hx).trans (hplain y hy).symm
    · simp [hkey]

theorem Varies.isExport_eq {x y : Json} (h : Varies 0 x y) : isExport x = isExport y := by
  cases h with
  | bare hx hy =>
    have hbare : ∀ {z : Json}, Bare 0 z → isExport z = false := by
      rintro z (_ | _ | _ | ⟨-, hdeep⟩)
      · rfl
      · rfl
      · rfl
      · exact absurd hdeep (Nat.not_lt_zero _)
    rw [hbare hx, hbare hy]
  | item before after _ => rfl
  | member before key after h =>
    have hdepth : 0 + 1 ≤ 128 := by decide
    exact isMarked_congr (h.ne_string hdepth) (h.symm.ne_string hdepth) key before after

/-- A document that is no export gives the context of its leaves: the paths in the order in which
they first come, each with its last value. Null, empty lists and objects, and all that lies too
deep, have no part in it. -/
theorem ofJson?_leafList {data : Json} (hnull : data ≠ .null) (hexport : isExport data = false) :
    ∃ c, ofJson? data = some c ∧ c = flattenInto empty "" 0 data ∧
      Entries.names c.entries = (Entries.names (leafList data)).eraseDups ∧
      (∀ e ∈ c.entries, (leafList data).reverse.lookup e.1 = some e.2) ∧
      ∀ other, other ≠ .null → Varies 0 data other → ofJson? other = some c := by
  have hplace : ∀ x, place "" 0 x.scalars = leaves "" 0 x := fun x => (leaves_eq_place "" 0 x).symm
  refine ⟨ofPairs (leafList data), ?_, ?_, Entries.names_ofPairs _, ?_, ?_⟩
  · rw [ofJson?_eq_place hnull hexport, hplace, leaves_eq_leafList]
  · rw [ofPairs_eq_foldl_insert, flattenInto_eq, leaves_eq_leafList]
    rfl
  · intro e he
    rw [← Entries.last?_eq_lookup_reverse, ← Entries.lookup_ofPairs]
    exact Entries.lookup_of_mem (Entries.nodup_ofPairs _) he
  · intro other hother h
    rw [ofJson?_eq_place hother (h.isExport_eq ▸ hexport), hplace, ← h.leaves_eq,
      leaves_eq_leafList]

/-- `{"a.b": 1, "a": {"b": 2, "c": null}, "x": [true, …, "on"], "": {"a.b": 3}}`, with eleven nulls
in the list. -/
def colliding : Json :=
  .object
    [("a.b", .number (.integer 1)),
      ("a", .object [("b", .number (.integer 2)), ("c", .null)]),
      ("x", .array (.boolean true :: List.replicate 11 .null ++ [.string "on"])),
      ("", .object [("a.b", .number (.integer 3))])]

def collidingToo : Json :=
  .object
    [("a.b", .number (.integer 1)),
      ("a", .object [("b", .number (.integer 2)), ("c", .object [])]),
      ("x", .array (.boolean true :: List.replicate 11 .null ++ [.string "on"])),
      ("", .object [("a.b", .number (.integer 3))])]

theorem ofJson?_leafList_colliding :
    colliding ≠ .null ∧ isExport colliding = false ∧ Varies 0 colliding collidingToo ∧
      leafList colliding =
        [("a.b", .integer 1), ("a.b", .integer 2), ("x[0]", .boolean true),
          ("x[12]", .string "on"), ("a.b", .integer 3)] ∧
      ∃ c, ofJson? colliding = some c ∧ ofJson? collidingToo = some c ∧
        c.entries = [("a.b", .integer 3), ("x[0]", .boolean true), ("x[12]", .string "on")] := by
  have hnull : colliding ≠ .null := nofun
  have hother : collidingToo ≠ .null := nofun
  have hvaries : Varies 0 colliding collidingToo :=
    .member [("a.b", .number (.integer 1))] "a" _
      (.member [("b", .number (.integer 2))] "c" [] (.bare .null .emptyObject))
  obtain ⟨c, hc, hflat, -, -, hsame⟩ := ofJson?_leafList hnull rfl
  exact ⟨hnull, rfl, hvaries, rfl, c, hc, hsame collidingToo hother hvaries, hflat ▸ rfl⟩

end Context

end RuleLogic

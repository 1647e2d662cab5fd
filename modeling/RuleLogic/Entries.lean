import Std.Data.TreeMap.Lemmas

/-!
Rows of named entries that keep the order in which names first came: `put` changes an entry where it
stands or adds it at the end, and `remove` takes it out. `lookup_put` and `lookup_remove` say what
is found afterwards. `ofPairs` puts many entries at once, and `ofPairs_eq_foldl` says that it does
no more; of the pairs with one name, `lookup_ofPairs` finds the last.
-/
namespace RuleLogic.Entries

variable {α : Type}

def names (entries : List (String × α)) : List String := entries.map Prod.fst

def put (name : String) (value : α) : List (String × α) → List (String × α)
  | [] => [(name, value)]
  | (n, v) :: rest => if n = name then (n, value) :: rest else (n, v) :: put name value rest

def remove (name : String) (entries : List (String × α)) : List (String × α) :=
  entries.filter fun e => e.1 != name

@[simp] theorem names_nil : names ([] : List (String × α)) = [] := rfl

@[simp] theorem names_cons (e : String × α) (rest : List (String × α)) :
    names (e :: rest) = e.1 :: names rest := rfl

theorem names_put (name : String) (value : α) (entries : List (String × α)) :
    names (put name value entries) =
      if name ∈ names entries then names entries else names entries ++ [name] := by
  induction entries with
  | nil => rfl
  | cons e rest ih =>
    by_cases h : e.1 = name
    · simp [put, h]
    · have h' : name ≠ e.1 := fun hn => h hn.symm
      by_cases hr : name ∈ names rest <;> simp_all [put]

theorem nodup_put {entries : List (String × α)} (name : String) (value : α)
    (h : (names entries).Nodup) : (names (put name value entries)).Nodup := by
  rw [names_put]
  split
  · exact h
  · rename_i hn
    refine List.nodup_append.2 ⟨h, by simp, ?_⟩
    rintro a ha b hb rfl
    exact hn (List.mem_singleton.1 hb ▸ ha)

theorem lookup_cons (n : String) (e : String × α) (rest : List (String × α)) :
    (e :: rest).lookup n = if n = e.1 then some e.2 else rest.lookup n := by
  rw [List.lookup_cons]
  by_cases h : n = e.1
  · simp [h]
  · simp [h, beq_eq_false_iff_ne.2 h]

@[simp] theorem lookup_put (n name : String) (value : α) (entries : List (String × α)) :
    (put name value entries).lookup n = if n = name then some value else entries.lookup n := by
  induction entries with
  | nil => simp [put, lookup_cons]
  | cons e rest ih =>
    unfold put
    by_cases he : e.1 = name <;> by_cases hn : n = name <;> grind [lookup_cons]

@[simp] theorem lookup_remove (n name : String) (entries : List (String × α)) :
    (remove name entries).lookup n = if n = name then none else entries.lookup n := by
  induction entries with
  | nil => simp [remove]
  | cons e rest ih =>
    unfold remove at ih ⊢
    rw [List.filter_cons]
    split <;> grind [lookup_cons]

theorem names_remove (name : String) (entries : List (String × α)) :
    names (remove name entries) = (names entries).filter (· != name) := by
  rw [names, remove, names, List.filter_map]
  rfl

theorem remove_put (name : String) (value : α) (entries : List (String × α)) :
    remove name (put name value entries) = remove name entries := by
  induction entries with
  | nil => simp [put, remove]
  | cons e rest ih =>
    unfold remove at ih ⊢
    by_cases h : e.1 = name
    · simp [put, h]
    · simp [put, h, ih]

theorem remove_eq_self_iff {name : String} {entries : List (String × α)} :
    remove name entries = entries ↔ name ∉ names entries := by
  simp only [remove, List.filter_eq_self, bne_iff_ne, names, List.mem_map, not_exists, not_and]

theorem put_of_not_mem {name : String} {entries : List (String × α)} (h : name ∉ names entries)
    (value : α) : put name value entries = entries ++ [(name, value)] := by
  induction entries with
  | nil => rfl
  | cons e rest ih =>
    obtain ⟨hname, hrest⟩ := not_or.1 (mt List.mem_cons.2 h)
    rw [put, if_neg (Ne.symm hname), ih hrest, List.cons_append]

theorem lookup_of_mem {entries : List (String × α)} (hnodup : (names entries).Nodup)
    {e : String × α} (h : e ∈ entries) : entries.lookup e.1 = some e.2 := by
  induction entries with
  | nil => contradiction
  | cons x rest ih =>
    obtain ⟨hx, hrest⟩ := List.nodup_cons.1 hnodup
    rw [lookup_cons]
    rcases List.mem_cons.1 h with rfl | h
    · exact if_pos rfl
    · have hne : e.1 ≠ x.1 := fun heq => hx (heq ▸ List.mem_map_of_mem h)
      rw [if_neg hne, ih hrest h]

theorem mem_of_lookup {name : String} {value : α} {entries : List (String × α)}
    (h : entries.lookup name = some value) : (name, value) ∈ entries := by
  obtain ⟨before, after, rfl, -⟩ := List.lookup_eq_some_iff.1 h
  simp

def last? (name : String) : List (String × α) → Option α
  | [] => none
  | (n, v) :: rest => (last? name rest).or (if n = name then some v else none)

def index (pairs : List (String × α)) : Std.TreeMap String α :=
  pairs.foldl (fun t e => t.insert e.1 e.2) ∅

/-- Each name that still has a value in the table, where it first comes. -/
def pick (values : Std.TreeMap String α) : List (String × α) → List (String × α)
  | [] => []
  | (n, _) :: rest =>
    match values[n]? with
    | some v => (n, v) :: pick (values.erase n) rest
    | none => pick values rest

/-- The entries after putting all pairs in turn. -/
def ofPairs (pairs : List (String × α)) : List (String × α) := pick (index pairs) pairs

theorem getElem?_foldl_insert (pairs : List (String × α)) (t : Std.TreeMap String α)
    (name : String) :
    (pairs.foldl (fun t e => t.insert e.1 e.2) t)[name]? = (last? name pairs).or t[name]? := by
  induction pairs generalizing t with
  | nil => rfl
  | cons e rest ih =>
    obtain ⟨n, v⟩ := e
    rw [List.foldl_cons, ih, Std.TreeMap.getElem?_insert]
    by_cases h : n = name <;> cases hl : last? name rest <;> simp [last?, h, hl]

theorem getElem?_index (pairs : List (String × α)) (name : String) :
    (index pairs)[name]? = last? name pairs := by
  rw [index, getElem?_foldl_insert]
  simp

theorem foldl_put_cons (n : String) (v : α) (entries pairs : List (String × α)) :
    pairs.foldl (fun es e => put e.1 e.2 es) ((n, v) :: entries) =
      (n, (last? n pairs).getD v) ::
        (pairs.filter (·.1 ≠ n)).foldl (fun es e => put e.1 e.2 es) entries := by
  induction pairs generalizing v entries with
  | nil => rfl
  | cons e rest ih =>
    by_cases h : n = e.1
    · simp [put, last?, ← h, ih]
    · simp [put, last?, h, Ne.symm h, ih]

theorem last?_filter {name : String} {keep : String → Bool} (h : keep name = true)
    (pairs : List (String × α)) : last? name (pairs.filter (keep ·.1)) = last? name pairs := by
  induction pairs with
  | nil => rfl
  | cons e rest ih =>
    by_cases hk : keep e.1 = true
    · simp [last?, hk, ih]
    · have hn : e.1 ≠ name := fun he => hk (he ▸ h)
      simp [last?, hk, hn, ih]

theorem isSome_last? {name : String} {pairs : List (String × α)} (h : name ∈ names pairs) :
    (last? name pairs).isSome = true := by
  induction pairs with
  | nil => contradiction
  | cons e rest ih =>
    rcases List.mem_cons.1 h with rfl | h
    · simp [last?]
    · simp [last?, ih h]

theorem last?_cons_of_mem {name : String} (e : String × α) {rest : List (String × α)}
    (h : name ∈ names rest) : last? name (e :: rest) = last? name rest := by
  obtain ⟨v, hv⟩ := Option.isSome_iff_exists.1 (isSome_last? h)
  simp [last?, hv]

theorem mem_of_last? {name : String} {value : α} {pairs : List (String × α)}
    (h : last? name pairs = some value) : (name, value) ∈ pairs := by
  induction pairs with
  | nil => contradiction
  | cons e rest ih =>
    rcases Option.or_eq_some_iff.1 h with h | ⟨-, h⟩
    · exact List.mem_cons_of_mem _ (ih h)
    · obtain ⟨rfl, hvalue⟩ := Option.ite_none_right_eq_some.1 h
      rw [← Option.some.inj hvalue]
      exact List.mem_cons_self ..

theorem pick_eq_foldl (pairs : List (String × α)) (values : Std.TreeMap String α)
    (h : ∀ name ∈ names pairs, values[name]? = none ∨ values[name]? = last? name pairs) :
    pick values pairs =
      (pairs.filter (values.contains ·.1)).foldl (fun es e => put e.1 e.2 es) [] := by
  induction pairs generalizing values with
  | nil => rfl
  | cons e rest ih =>
    obtain ⟨n, v⟩ := e
    have hrest : ∀ name ∈ names rest, values[name]? = none ∨ values[name]? = last? name rest :=
      fun name hm => last?_cons_of_mem (n, v) hm ▸ h name (List.mem_cons_of_mem _ hm)
    unfold pick
    split
    · -- the name stands here with its last value, and is erased from the table for the rest
      rename_i w hw
      have hn : values.contains n = true := by simp [Std.TreeMap.contains_eq_isSome_getElem?, hw]
      have hlast : (last? n rest).getD v = w := by
        have := (h n (List.mem_cons_self ..)).resolve_left (by simp [hw])
        cases hl : last? n rest <;> simp_all [last?]
      have hfilter : rest.filter ((values.erase n).contains ·.1) =
          (rest.filter (values.contains ·.1)).filter (·.1 ≠ n) := by
        rw [List.filter_filter]
        refine List.filter_congr fun e _ => ?_
        rw [Std.TreeMap.contains_erase, Bool.and_comm]
        by_cases he : e.1 = n
        · simp [he]
        · simp [he, Ne.symm he]
      have hkeep : last? n (rest.filter (values.contains ·.1)) = last? n rest :=
        last?_filter hn rest
      rw [ih, List.filter_cons_of_pos (by exact hn), List.foldl_cons]
      · simp only [put]
        rw [foldl_put_cons, hkeep, hlast, hfilter]
      · intro name hm
        rw [Std.TreeMap.getElem?_erase]
        split
        · exact .inl rfl
        · exact hrest name hm
    · rename_i hw
      have hn : ¬values.contains n = true := by simp [Std.TreeMap.contains_eq_isSome_getElem?, hw]
      rw [ih values hrest, List.filter_cons_of_neg (by exact hn)]

theorem ofPairs_eq_foldl (pairs : List (String × α)) :
    ofPairs pairs = pairs.foldl (fun es e => put e.1 e.2 es) [] := by
  have hall : pairs.filter ((index pairs).contains ·.1) = pairs := by
    refine List.filter_eq_self.2 fun e he => ?_
    have hm : e.1 ∈ names pairs := List.mem_map_of_mem he
    rw [Std.TreeMap.contains_eq_isSome_getElem?, getElem?_index, isSome_last? hm]
  rw [ofPairs, pick_eq_foldl pairs _ fun name _ => .inr (getElem?_index pairs name), hall]

theorem nodup_ofPairs (pairs : List (String × α)) : (names (ofPairs pairs)).Nodup := by
  rw [ofPairs_eq_foldl]
  suffices h : ∀ es : List (String × α), (names es).Nodup →
      (names (pairs.foldl (fun es e => put e.1 e.2 es) es)).Nodup from h [] .nil
  induction pairs with
  | nil => exact fun _ h => h
  | cons e rest ih => exact fun es h => ih _ (nodup_put e.1 e.2 h)

theorem ofPairs_of_nodup {pairs : List (String × α)} (h : (names pairs).Nodup) :
    ofPairs pairs = pairs := by
  have happend : ∀ es : List (String × α), (names (es ++ pairs)).Nodup →
      pairs.foldl (fun es e => put e.1 e.2 es) es = es ++ pairs := by
    clear h
    induction pairs with
    | nil => exact fun es _ => (List.append_nil es).symm
    | cons e rest ih =>
      intro es hes
      have hfresh : e.1 ∉ names es := by
        rw [names, List.map_append, List.nodup_append] at hes
        exact fun hmem => hes.2.2 e.1 hmem e.1 (List.mem_cons_self ..) rfl
      rw [List.foldl_cons, put_of_not_mem hfresh, ih _ (by simpa using hes)]
      simp
  rw [ofPairs_eq_foldl]
  exact happend [] h

theorem lookup_ofPairs (name : String) (pairs : List (String × α)) :
    (ofPairs pairs).lookup name = last? name pairs := by
  have hfold : ∀ es : List (String × α), (pairs.foldl (fun es e => put e.1 e.2 es) es).lookup name =
      (last? name pairs).or (es.lookup name) := by
    induction pairs with
    | nil => exact fun es => rfl
    | cons e rest ih =>
      intro es
      rw [List.foldl_cons, ih, lookup_put]
      by_cases h : name = e.1
      · subst h
        cases hl : last? e.1 rest <;> simp [last?, hl]
      · cases hl : last? name rest <;> simp [last?, h, Ne.symm h, hl]
  rw [ofPairs_eq_foldl, hfold]
  simp

theorem mem_of_mem_ofPairs {e : String × α} {pairs : List (String × α)}
    (h : e ∈ ofPairs pairs) : e ∈ pairs := by
  have hlookup := lookup_of_mem (nodup_ofPairs pairs) h
  rw [lookup_ofPairs] at hlookup
  exact mem_of_last? hlookup

theorem mem_names_ofPairs {name : String} {pairs : List (String × α)} :
    name ∈ names (ofPairs pairs) ↔ name ∈ names pairs := by
  constructor
  · intro h
    obtain ⟨e, he, rfl⟩ := List.mem_map.1 h
    exact List.mem_map_of_mem (mem_of_mem_ofPairs he)
  · intro h
    obtain ⟨v, hv⟩ := Option.isSome_iff_exists.1 (isSome_last? h)
    rw [← lookup_ofPairs] at hv
    exact List.mem_map_of_mem (f := Prod.fst) (mem_of_lookup hv)

end RuleLogic.Entries

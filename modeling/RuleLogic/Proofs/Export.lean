import RuleLogic.Proofs.Finite
import RuleLogic.Proofs.Flattening

/-! Exported contexts that are read again. What comes back are the entries whose values documents
hold as scalars, as they were and in their order, but for one at the path of the marker, whose place
the marker takes. A context that a document gave loses no other entry, and it has that one when the
document is no export and one of its scalars has the path. -/
namespace RuleLogic

theorem Value.toJson_float {x : Double} (h : x.isFinite = true) :
    (float x).toJson = .number (.double x h) :=
  Literal.toJson_float h

/-- Whether an export keeps a value: null stands for the missing ones and for doubles that are not
finite, and lists are no scalars. -/
def Value.isPortable : Value → Bool
  | nil => false
  | boolean _ => true
  | integer _ => true
  | float x => x.isFinite
  | string _ => true
  | list _ => false

theorem Value.ofScalar?_toJson (v : Value) :
    ofScalar? v.toJson = if v.isPortable then some v else none := by
  cases v with
  | float x =>
    cases hx : x.isFinite with
    | true =>
      rw [toJson_float hx]
      simp [ofScalar?, ofNumber, isPortable, hx]
    | false => simp [toJson, Number.ofDouble?, ofScalar?, isPortable, hx]
  | _ => rfl

theorem Value.isPortable_of_ofScalar? {data : Json} {v : Value} (h : ofScalar? data = some v) :
    v.isPortable = true := by
  cases data with
  | boolean b =>
    obtain rfl := Option.some.inj h
    rfl
  | string s =>
    obtain rfl := Option.some.inj h
    rfl
  | number n =>
    obtain rfl := Option.some.inj h
    cases n with
    | integer n => rfl
    | large n =>
      have hfinite : (Double.ofInt n.toNat).isFinite = true :=
        Literal.isFinite_of_ofNumber (rfl : Literal.ofNumber (.large n) = _)
      rw [ofNumber, isPortable, hfinite]
    | double x finite => exact finite
  | _ => contradiction

namespace Context

def without (c : Context) (path : String) : Context where
  entries := Entries.remove path c.entries
  nodup := by
    rw [Entries.names_remove]
    exact c.nodup.filter _

theorem without_eq_self_iff {c : Context} {path : String} :
    c.without path = c ↔ path ∉ Entries.names c.entries := by
  rw [← Entries.remove_eq_self_iff, Context.ext_iff]
  rfl

theorem isMarked_put (members : List (String × Json)) :
    isMarked (Entries.put marker (.string marker) members) = true := by
  simp [isMarked]

theorem exported_put (members : List (String × Json)) :
    exported (Entries.put marker (.string marker) members) = exported members := by
  show (Entries.remove marker (Entries.put marker (.string marker) members)).filterMap _ = _
  rw [Entries.remove_put]
  rfl

def portable (c : Context) : Context where
  entries := c.entries.filter fun e => e.2.isPortable && e.1 != marker
  nodup := c.nodup.sublist (List.filter_sublist.map Prod.fst)

theorem portable_portable (c : Context) : c.portable.portable = c.portable := by
  apply Context.ext
  exact List.filter_eq_self.2 fun e he => (List.mem_filter.1 he).2

theorem ofPairs_entries (c : Context) : ofPairs c.entries = c := by
  apply Context.ext
  exact Entries.ofPairs_of_nodup c.nodup

theorem exported_toJson (c : Context) :
    exported (c.entries.map fun e => (e.1, e.2.toJson)) = c.portable.entries := by
  have hread : (fun e : String × Value => (Value.ofScalar? e.2.toJson).map fun v => (e.1, v)) =
      Option.guard fun e => e.2.isPortable := by
    funext e
    rw [Value.ofScalar?_toJson, Option.guard]
    cases e.2.isPortable <;> rfl
  rw [exported, List.filter_map, List.filterMap_map]
  show (Entries.remove marker c.entries).filterMap (fun e =>
    (Value.ofScalar? e.2.toJson).map fun v => (e.1, v)) = _
  rw [hread, List.filterMap_eq_filter, Entries.remove, List.filter_filter]
  rfl

theorem ofJson?_toJson (c : Context) : ofJson? c.toJson = some c.portable := by
  rw [toJson, ofJson?, isMarked_put, if_pos rfl, exported_put, exported_toJson, ofPairs_entries]

theorem ofJson?_toJson_of_scalars {c : Context}
    (h : ∀ e ∈ c.entries, ∃ data, Value.ofScalar? data = some e.2) :
    ofJson? c.toJson = some (c.without marker) := by
  have hportable : c.portable = c.without marker := by
    apply Context.ext
    apply List.filter_congr
    intro e he
    obtain ⟨data, hdata⟩ := h e he
    rw [Value.isPortable_of_ofScalar? hdata, Bool.true_and]
  rw [ofJson?_toJson, hportable]

/-- A context may hold what no document does, and anything may stand at the path of the marker. Of
all that was put into it, an export keeps the other entries with portable values, as they are and in
their order, and a second export keeps everything. -/
theorem ofJson?_toJson_kept (c : Context) :
    ∃ kept, ofJson? c.toJson = some kept ∧
      kept.entries = c.entries.filter (fun e => e.2.isPortable && e.1 != marker) ∧
      ofJson? kept.toJson = some kept := by
  have hagain : ofJson? c.portable.toJson = some c.portable := by
    rw [ofJson?_toJson, portable_portable]
  exact ⟨c.portable, ofJson?_toJson c, rfl, hagain⟩

example :
    (((((empty.insert "a" .nil).insert marker (.integer 1)).insert "b" (.float .nan)).insert "c"
      (.list [.integer 1])).insert "d" (.boolean true)).portable.entries = [("d", .boolean true)] :=
  rfl

theorem mem_exported {members : List (String × Json)} {e : String × Value}
    (h : e ∈ exported members) : e.1 ≠ marker ∧ ∃ data, Value.ofScalar? data = some e.2 := by
  obtain ⟨member, hmember, hvalue⟩ := List.mem_filterMap.1 h
  obtain ⟨v, hv, rfl⟩ := Option.map_eq_some_iff.1 hvalue
  exact ⟨by simpa using (List.mem_filter.1 hmember).2, member.2, hv⟩

theorem ofJson?_eq_some {data : Json} {c : Context} (h : ofJson? data = some c) :
    (isExport data = true ∧ ∃ members, c = ofPairs (exported members)) ∨
      (isExport data = false ∧ c = ofPairs (place "" 0 data.scalars)) := by
  cases hexport : isExport data with
  | true =>
    cases data with
    | object members =>
      have hmarked : isMarked members = true := hexport
      rw [ofJson?, if_pos hmarked] at h
      exact .inl ⟨rfl, members, (Option.some.inj h).symm⟩
    | _ => contradiction
  | false =>
    have hnull : data ≠ .null := by
      rintro rfl
      contradiction
    rw [ofJson?_eq_place hnull hexport] at h
    exact .inr ⟨rfl, (Option.some.inj h).symm⟩

theorem scalars_of_ofJson? {data : Json} {c : Context} (h : ofJson? data = some c) :
    ∀ e ∈ c.entries, ∃ x, Value.ofScalar? x = some e.2 := by
  intro e he
  obtain ⟨-, members, rfl⟩ | ⟨-, rfl⟩ := ofJson?_eq_some h
  · exact (mem_exported (Entries.mem_of_mem_ofPairs he)).2
  · obtain ⟨steps, ⟨x, -, hx⟩, -, -⟩ := mem_place_root.1 (Entries.mem_of_mem_ofPairs he)
    exact ⟨x, Json.ofScalar?_eq_some_iff.2 hx⟩

/-- A document that is no export has a scalar where the path is the marker: under that key, at the
root or below members with empty keys. -/
def TakesMarker (data : Json) : Prop :=
  isExport data = false ∧
    ∃ n v, n < maxDepth ∧ data.Holds (List.replicate n (.member "") ++ [.member marker]) v

theorem mem_place_marker_iff {data : Json} {v : Value} :
    (marker, v) ∈ place "" 0 data.scalars ↔
      ∃ n, n < maxDepth ∧ data.Holds (List.replicate n (.member "") ++ [.member marker]) v := by
  have hne : marker ≠ "" := by decide
  have hplain : ∀ c ∈ marker.toList, c ≠ '.' ∧ c ≠ '[' := by simp [marker]
  simp only [mem_place_root, pathOf_eq_iff hne hplain]
  constructor
  · rintro ⟨steps, hv, hdepth, n, rfl⟩
    rw [List.length_append, List.length_replicate] at hdepth
    exact ⟨n, hdepth, hv⟩
  · rintro ⟨n, hn, hv⟩
    refine ⟨_, hv, ?_, n, rfl⟩
    rwa [List.length_append, List.length_replicate]

theorem marker_mem_iff {data : Json} {c : Context} (h : ofJson? data = some c) :
    marker ∈ Entries.names c.entries ↔ TakesMarker data := by
  obtain ⟨hexport, members, rfl⟩ | ⟨hexport, rfl⟩ := ofJson?_eq_some h
  · refine iff_of_false (fun hmarker => ?_) fun htakes => by simp [TakesMarker, hexport] at htakes
    obtain ⟨e, he, hpath⟩ := List.mem_map.1 (Entries.mem_names_ofPairs.1 hmarker)
    exact (mem_exported he).1 hpath
  · have hnames : marker ∈ Entries.names (ofPairs (place "" 0 data.scalars)).entries ↔
        ∃ v, (marker, v) ∈ place "" 0 data.scalars := by
      rw [ofPairs, Entries.mem_names_ofPairs]
      simp [Entries.names]
    simp only [hnames, mem_place_marker_iff, TakesMarker, hexport, true_and]
    exact exists_comm

/-- A context that a document gives is exported and read again with all its entries in their order,
unless the document takes the path of the marker for a scalar of its own: that entry is lost. -/
theorem ofJson?_toJson_iff {data : Json} {c : Context} (h : ofJson? data = some c) :
    ofJson? c.toJson = some (c.without marker) ∧
      (ofJson? c.toJson = some c ↔ ¬TakesMarker data) := by
  have hread := ofJson?_toJson_of_scalars (scalars_of_ofJson? h)
  refine ⟨hread, ?_⟩
  rw [hread, Option.some.injEq, without_eq_self_iff, marker_mem_iff h]

/-- `{"_flattenContext": {"": true}, "a.b": 1, "a": {"b": 2}}` -/
def markerAbove : Json :=
  .object
    [("_flattenContext", .object [("", .boolean true)]), ("a.b", .number (.integer 1)),
      ("a", .object [("b", .number (.integer 2))])]

def markerAboveContext : Context :=
  (empty.insert "_flattenContext." (.boolean true)).insert "a.b" (.integer 2)

theorem ofJson?_toJson_markerAbove :
    ofJson? markerAbove = some markerAboveContext ∧
      ofJson? markerAboveContext.toJson = some markerAboveContext := by
  have hnull : markerAbove ≠ .null := nofun
  have hread : ofJson? markerAbove = some markerAboveContext := by
    rw [ofJson?_eq_place hnull rfl, ofPairs_eq_foldl_insert]
    rfl
  have hfree : marker ∉ Entries.names markerAboveContext.entries := by decide
  exact ⟨hread, (ofJson?_toJson_iff hread).2.2 (mt (marker_mem_iff hread).2 hfree)⟩

/-- `{"_flattenContext": 1, "a": 2}` -/
def markerTaken : Json :=
  .object [("_flattenContext", .number (.integer 1)), ("a", .number (.integer 2))]

def markerTakenContext : Context :=
  (empty.insert "_flattenContext" (.integer 1)).insert "a" (.integer 2)

theorem ofJson?_toJson_markerTaken :
    ofJson? markerTaken = some markerTakenContext ∧
      ofJson? markerTakenContext.toJson ≠ some markerTakenContext := by
  have hnull : markerTaken ≠ .null := nofun
  have hread : ofJson? markerTaken = some markerTakenContext := by
    rw [ofJson?_eq_place hnull rfl, ofPairs_eq_foldl_insert]
    rfl
  have htaken : marker ∈ Entries.names markerTakenContext.entries := by decide
  refine ⟨hread, fun h => ?_⟩
  rw [ofJson?_toJson_of_scalars (scalars_of_ofJson? hread), Option.some.injEq,
    without_eq_self_iff] at h
  exact h htaken

end Context

end RuleLogic

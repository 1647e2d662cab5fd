import RuleLogic.Proofs.Casting
import RuleLogic.Proofs.Extension
import RuleLogic.Proofs.Flattening
import RuleLogic.Proofs.Rereading

/-! Every scalar has its address. Where keys are plain, the text of a path cuts into its steps in
one way only, so positions have different paths, no scalar stands in the place of another, and a
reference to the path of a scalar evaluates to it. -/
namespace RuleLogic

/-- A key that a path shows as it is: some text without dots, brackets, braces and parentheses. -/
def PlainKey (key : String) : Prop :=
  key ≠ "" ∧ ∀ c ∈ key.toList, c ∉ ['.', '[', ']', '\x7b', '\x7d', '(', ')']

def PlainKeys (keys : List String) : Prop := keys.Nodup ∧ ∀ key ∈ keys, PlainKey key

def Step.Plain : Step → Prop
  | member key => PlainKey key
  | item _ => True

theorem Json.KeysAll.imp {P Q : List String → Prop} {c : Json} (h : c.KeysAll P)
    (himp : ∀ keys, P keys → Q keys) : c.KeysAll Q :=
  fun steps members hat => himp _ (h steps members hat)

theorem Json.KeysAll.scalar {P : List String → Prop} {c : Json}
    (h : ∀ members, c ≠ .object members) (h' : ∀ items, c ≠ .array items) : c.KeysAll P := by
  rintro steps members (_ | _ | _)
  · exact absurd rfl (h members)
  · exact absurd rfl (h _)
  · exact absurd rfl (h' _)

theorem Json.At.plain {c x : Json} {steps : List Step} (hat : c.At steps x)
    (h : c.KeysAll PlainKeys) : ∀ step ∈ steps, step.Plain := by
  induction hat with
  | root x => exact fun _ hstep => nomatch hstep
  | member hx _ ih =>
    obtain ⟨⟨-, hkeys⟩, hmembers⟩ := keysAll_object_iff.1 h
    exact List.forall_mem_cons.2 ⟨hkeys _ (List.mem_map_of_mem hx), ih (hmembers _ hx)⟩
  | item hx _ ih =>
    have hitem := keysAll_array_iff.1 h _ (List.mem_of_getElem? hx)
    exact List.forall_mem_cons.2 ⟨trivial, ih hitem⟩

theorem append_inj_of_stops {P : Char → Prop} {u v w z : List Char} (hu : ∀ c ∈ u, ¬P c)
    (hv : ∀ c ∈ v, ¬P c) (hw : ∀ c ∈ w.head?, P c) (hz : ∀ c ∈ z.head?, P c)
    (h : u ++ w = v ++ z) : u = v ∧ w = z := by
  induction u generalizing v with
  | nil =>
    cases v with
    | nil => exact ⟨rfl, h⟩
    | cons b v =>
      obtain rfl : w = b :: (v ++ z) := h
      exact absurd (hw b rfl) (hv b (List.mem_cons_self ..))
  | cons a u ih =>
    cases v with
    | nil =>
      obtain rfl : a :: (u ++ w) = z := h
      exact absurd (hz a rfl) (hu a (List.mem_cons_self ..))
    | cons b v =>
      obtain ⟨rfl, htail⟩ := List.cons.inj h
      obtain ⟨rfl, rfl⟩ := ih (List.forall_mem_cons.1 hu).2 (List.forall_mem_cons.1 hv).2 htail
      exact ⟨rfl, rfl⟩

theorem toDigits_ne_bracket (index : Nat) : ∀ c ∈ Nat.toDigits 10 index, c ≠ ']' := by
  rintro _ hc rfl
  have hdigit := Nat.isDigit_of_mem_toDigits (by decide) (by decide) hc
  contradiction

namespace Step

theorem text_append_inj {s t : Step} (hs : s.Plain) (ht : t.Plain) {w z : List Char}
    (hw : ∀ c ∈ w.head?, c = '.' ∨ c = '[') (hz : ∀ c ∈ z.head?, c = '.' ∨ c = '[')
    (h : s.text ++ w = t.text ++ z) : s = t ∧ w = z := by
  have hstop : ∀ key, PlainKey key → ∀ c ∈ key.toList, ¬(c = '.' ∨ c = '[') := by
    rintro key hkey c hc (rfl | rfl)
    · exact hkey.2 _ hc (by decide)
    · exact hkey.2 _ hc (by decide)
  cases s with
  | member key =>
    cases t with
    | member key' =>
      obtain ⟨hkey, hrest⟩ :=
        append_inj_of_stops (hstop key hs) (hstop key' ht) hw hz (List.cons.inj h).2
      exact ⟨congrArg member (String.toList_inj.1 hkey), hrest⟩
    | item index => exact absurd (List.cons.inj h).1 (by decide)
  | item index =>
    cases t with
    | member key => exact absurd (List.cons.inj h).1 (by decide)
    | item index' =>
      have htail : Nat.toDigits 10 index ++ ([']'] ++ w) =
          Nat.toDigits 10 index' ++ ([']'] ++ z) := by
        simpa [text] using h
      have hhead : ∀ l : List Char, ∀ c ∈ ([']'] ++ l).head?, c = ']' :=
        fun l c hc => (Option.some.inj hc).symm
      obtain ⟨hdigits, hrest⟩ := append_inj_of_stops (toDigits_ne_bracket index)
        (toDigits_ne_bracket index') (hhead w) (hhead z) htail
      have hindex := congrArg Decimal.natOfDigits hdigits
      rw [Decimal.natOfDigits_toDigits, Decimal.natOfDigits_toDigits] at hindex
      exact ⟨congrArg item hindex, (List.cons.inj hrest).2⟩

end Step

namespace Context

theorem textOf_inj {p q : List Step} (hp : ∀ step ∈ p, step.Plain) (hq : ∀ step ∈ q, step.Plain)
    (h : textOf p = textOf q) : p = q := by
  induction p generalizing q with
  | nil => exact (textOf_eq_nil_iff.1 h.symm).symm
  | cons s p ih =>
    cases q with
    | nil => exact textOf_eq_nil_iff.1 h
    | cons t q =>
      obtain ⟨hs, hrest⟩ := List.forall_mem_cons.1 hp
      obtain ⟨ht, hrest'⟩ := List.forall_mem_cons.1 hq
      obtain ⟨rfl, htext⟩ := Step.text_append_inj hs ht head_textOf head_textOf h
      rw [ih hrest hrest' htext]

/-- The text of the steps of a path: a key at the root stands there without its dot. -/
def dotted : List Char → List Char
  | [] => []
  | c :: cs => if c = '[' then c :: cs else '.' :: c :: cs

theorem textOf_eq_dotted {steps : List Step} (h : ∀ step ∈ steps, step.Plain) :
    textOf steps = dotted (pathOf steps).toList := by
  cases steps with
  | nil => rfl
  | cons step rest =>
    cases step with
    | item index =>
      rw [toList_pathOf_item]
      rfl
    | member key =>
      obtain ⟨hne, hkey⟩ : PlainKey key := h _ (List.mem_cons_self ..)
      obtain ⟨c, cs, hcs⟩ := List.exists_cons_of_ne_nil (mt String.toList_eq_nil_iff.1 hne)
      rw [toList_pathOf_member hne, textOf, List.flatMap_cons, Step.text, hcs]
      rw [hcs] at hkey
      have hbracket : c ≠ '[' := by
        rintro rfl
        exact hkey '[' (List.mem_cons_self ..) (by decide)
      show _ = dotted (c :: (cs ++ textOf rest))
      rw [dotted, if_neg hbracket]
      rfl

/-- Positions with plain keys have different paths. -/
theorem pathOf_inj {p q : List Step} (hp : ∀ step ∈ p, step.Plain) (hq : ∀ step ∈ q, step.Plain)
    (h : pathOf p = pathOf q) : p = q := by
  refine textOf_inj hp hq ?_
  rw [textOf_eq_dotted hp, textOf_eq_dotted hq, h]

theorem mem_stepPath {c : Char} {path : String} {step : Step}
    (h : c ∈ (stepPath path step).toList) : c ∈ path.toList ∨ c ∈ step.text := by
  by_cases hpath : path = ""
  · subst hpath
    cases step with
    | member key => exact .inr (List.mem_cons_of_mem _ h)
    | item index => simpa [← itemPath_eq, itemPath, Step.text] using h
  · rw [toList_stepPath hpath] at h
    exact List.mem_append.1 h

theorem mem_pathFrom {c : Char} {path : String} {steps : List Step}
    (h : c ∈ (pathFrom path steps).toList) : c ∈ path.toList ∨ ∃ step ∈ steps, c ∈ step.text := by
  induction steps generalizing path with
  | nil => exact .inl h
  | cons step rest ih =>
    rcases ih h with hc | ⟨s, hs, hc⟩
    · exact (mem_stepPath hc).imp_right fun hc => ⟨step, List.mem_cons_self .., hc⟩
    · exact .inr ⟨s, List.mem_cons_of_mem _ hs, hc⟩

theorem not_mem_text {c : Char} (hc : c ∈ ['\x7b', '\x7d', '(', ')']) {step : Step}
    (h : step.Plain) : c ∉ step.text := by
  have hother : c ≠ '.' ∧ c ≠ '[' ∧ c ≠ ']' ∧ c.isDigit = false := by
    simp only [List.mem_cons, List.not_mem_nil, or_false] at hc
    rcases hc with rfl | rfl | rfl | rfl <;> decide
  intro hmem
  cases step with
  | member key =>
    have hkey := (List.mem_cons.1 hmem).resolve_left hother.1
    exact h.2 c hkey (by simp at hc ⊢; grind)
  | item index =>
    rcases List.mem_append.1 ((List.mem_cons.1 hmem).resolve_left hother.2.1) with hdigit | hend
    · have hdigit := Nat.isDigit_of_mem_toDigits (by decide) (by decide) hdigit
      simp [hother] at hdigit
    · exact hother.2.2.1 (List.mem_singleton.1 hend)

theorem not_mem_pathOf {c : Char} (hc : c ∈ ['\x7b', '\x7d', '(', ')']) {steps : List Step}
    (h : ∀ step ∈ steps, step.Plain) : c ∉ (pathOf steps).toList := by
  intro hmem
  obtain hempty | ⟨step, hstep, hmem⟩ := mem_pathFrom hmem
  · exact List.not_mem_nil hempty
  · exact not_mem_text hc (h step hstep) hmem

theorem pathOf_ne_empty {steps : List Step} (hne : steps ≠ []) (h : ∀ step ∈ steps, step.Plain) :
    pathOf steps ≠ "" := by
  intro hpath
  exact hne (pathOf_inj h (fun _ hstep => nomatch hstep) hpath)

/-- The entries are the scalars of a document that are nested at most 128 levels deep, one for each,
under their paths. -/
def Lists (f : Context) (c : Json) : Prop :=
  ∃ positions : List (List Step × Value), (positions.map Prod.fst).Nodup ∧
    (∀ p v, (p, v) ∈ positions ↔ c.Holds p v ∧ p.length ≤ 128) ∧
    f.entries = positions.map fun s => (pathOf s.1, s.2)

theorem Lists.get? {f : Context} {c : Json} (h : f.Lists c) {p : List Step} {v : Value}
    (hv : c.Holds p v) (hdepth : p.length ≤ 128) : f.get? (pathOf p) = some v := by
  obtain ⟨positions, -, hmem, hentries⟩ := h
  have hentry : (pathOf p, v) ∈ f.entries := by
    rw [hentries]
    exact List.mem_map_of_mem ((hmem p v).2 ⟨hv, hdepth⟩)
  exact Entries.lookup_of_mem f.nodup hentry

theorem ofJson?_of_plainKeys {c : Json} (hnull : c ≠ .null) (hexport : isExport c = false)
    (hkeys : c.KeysAll PlainKeys) : ∃ f, ofJson? c = some f ∧ f.Lists c := by
  have hplace : place "" 0 c.scalars =
      (c.scalars.filter fun s => s.1.length ≤ 128).map fun s => (pathOf s.1, s.2) := by
    simp only [place, Nat.zero_add]
    rfl
  generalize hpositions : (c.scalars.filter fun s => s.1.length ≤ 128) = positions at hplace
  have hmem : ∀ p v, (p, v) ∈ positions ↔ c.Holds p v ∧ p.length ≤ 128 := by
    intro p v
    rw [← hpositions, List.mem_filter, Json.mem_scalars_iff, decide_eq_true_eq]
  have honce : (positions.map Prod.fst).Nodup := by
    rw [← hpositions]
    exact (Json.nodup_scalars (hkeys.imp fun _ h => h.1)).sublist
      (List.filter_sublist.map Prod.fst)
  have hplain : ∀ p ∈ positions.map Prod.fst, ∀ step ∈ p, step.Plain := by
    rintro p hp
    obtain ⟨s, hs, rfl⟩ := List.mem_map.1 hp
    obtain ⟨⟨x, hat, -⟩, -⟩ := (hmem s.1 s.2).1 hs
    exact hat.plain hkeys
  have hnodup : (Entries.names (positions.map fun s => (pathOf s.1, s.2))).Nodup := by
    have hnames : Entries.names (positions.map fun s => (pathOf s.1, s.2)) =
        (positions.map Prod.fst).map pathOf := by
      simp only [Entries.names, List.map_map]
      rfl
    rw [hnames]
    exact honce.map_on fun p hp q hq => pathOf_inj (hplain p hp) (hplain q hq)
  refine ⟨_, ofJson?_eq_place hnull hexport, positions, honce, hmem, ?_⟩
  rw [hplace]
  exact Entries.ofPairs_of_nodup hnodup

end Context

theorem Segment.innermost?_eq_none {cs : List Char} (h : '\x7b' ∉ cs) : innermost? cs = none := by
  refine Option.eq_none_iff_forall_ne_some.2 fun segment hs => h ?_
  rw [(innermost?_eq_some hs).1]
  simp

namespace Reference

theorem ofAddress_plain {address : String} (h : '(' ∉ address.toList) (o : Options) :
    ofAddress o address = .ok ⟨address, address, .undefined, o⟩ := by
  have hsuffix : typeSuffix? address = none := by
    refine Option.eq_none_iff_forall_ne_some.2 fun ⟨path, name⟩ hs => h ?_
    rw [(typeSuffix?_eq_some_iff.1 hs).1]
    simp
  rw [ofAddress, hsuffix]

theorem evaluate_plain {path : String} (h : '\x7b' ∉ path.toList) {data : Context} {v : Value}
    (hv : data.get? path = some v) (address : String) (o : Options) :
    (⟨address, path, .undefined, o⟩ : Reference).evaluate data = .ok v := by
  have hresolve : data.resolve path = .ok ⟨path, some v⟩ := by
    rw [← hv]
    exact Context.resolveWithin_plain (Segment.innermost?_eq_none h) data _
  simp [evaluate, hresolve, Value.cast_undefined]

end Reference

namespace Engine

theorem evaluate_eq_ok_iff {engine : Engine} {x c : Json} {v : Value} :
    engine.evaluate x c = .ok v ↔
      ∃ n, engine.read x = .ok n ∧ n.evaluate engine.options.maxDepth (contextOf c) = .ok v := by
  unfold evaluate
  cases engine.read x with
  | error failure => simp [bind, Except.bind]
  | ok n =>
    cases hn : n.evaluate engine.options.maxDepth (contextOf c) <;> simp [bind, Except.bind, hn]

theorem evaluate_address {path : String} (hne : path ≠ "") (hplain : '(' ∉ path.toList)
    (hwhole : '\x7b' ∉ path.toList) {c : Json} {v : Value}
    (hv : (contextOf c).get? path = some v) :
    default.evaluate (.string ("$" ++ path)) c = .ok v := by
  have hread : default.read (.string ("$" ++ path)) =
      .ok (.reference ⟨path, path, .undefined, .default⟩) := by
    have hrender : Affix.default.format.render path = "$" ++ path := String.append_empty
    have hdepth : 0 < Options.default.maxDepth := by decide
    rw [read_eq_ok_iff, ← hrender]
    exact (Options.readAt_string hdepth _).trans
      (Options.readString_render Affix.default.exact_format hne
        (Reference.ofAddress_plain hplain _))
  exact evaluate_eq_ok_iff.2 ⟨_, hread, Reference.evaluate_plain hwhole hv path .default⟩

/-- Every scalar of a document with plain keys has a path of its own and, unless it is nested too
deep, one entry in the context, and a reference to its path evaluates to it. -/
theorem evaluate_pathOf {c : Json}
    (hc : (∃ members, c = .object members) ∨ ∃ items, c = .array items)
    (hexport : Context.isExport c = false) (hkeys : c.KeysAll PlainKeys) :
    (∀ p q x y, c.At p x → c.At q y → Context.pathOf p = Context.pathOf q → p = q) ∧
      (∃ f, Context.ofJson? c = some f ∧ f.Lists c) ∧
      ∀ p v, c.Holds p v → p.length ≤ 128 →
        default.evaluate (.string ("$" ++ Context.pathOf p)) c = .ok v := by
  have hscalar : c ≠ .null ∧ ∀ v, ¬c.Denotes v := by
    rcases hc with ⟨_, rfl⟩ | ⟨_, rfl⟩ <;> exact ⟨nofun, nofun⟩
  obtain ⟨f, hf, hlists⟩ := Context.ofJson?_of_plainKeys hscalar.1 hexport hkeys
  refine ⟨fun p q x y hp hq => Context.pathOf_inj (hp.plain hkeys) (hq.plain hkeys),
    ⟨f, hf, hlists⟩, fun p v hv hdepth => ?_⟩
  obtain ⟨x, hat, -⟩ := id hv
  have hplain := hat.plain hkeys
  have hget : (contextOf c).get? (Context.pathOf p) = some v := by
    rw [contextOf, hf]
    exact hlists.get? hv hdepth
  exact evaluate_address (Context.pathOf_ne_empty (Json.ne_nil_of_holds hscalar.2 hv) hplain)
    (Context.not_mem_pathOf (by decide) hplain) (Context.not_mem_pathOf (by decide) hplain) hget

def half : Double := .finite false ⟨1 <<< 52, 1021, by decide, by decide, .inr (by decide)⟩

/-- `{"user": {"$0": ["x", [null, 7]]}, "user,$0": false, "rate": 0.5}` -/
def roles : Json :=
  .object
    [("user", .object [("$0", .array [.string "x", .array [.null, .number (.integer 7)]])]),
      ("user,$0", .boolean false), ("rate", .number (.double half rfl))]

theorem plainKeys_roles : roles.KeysAll PlainKeys := by
  have hobject : roles.KeysAll PlainKeys ↔
      PlainKeys ["user", "user,$0", "rate"] ∧ PlainKeys ["$0"] := by
    simp [roles, Json.keysAll_object_iff, Json.keysAll_array_iff, Json.KeysAll.scalar]
  exact hobject.2 (by simp [PlainKeys, PlainKey])

theorem evaluate_pathOf_roles :
    (roles.Holds [.member "user", .member "$0", .item 0] (.string "x") ∧
        default.evaluate (.string "$user.$0[0]") roles = .ok (.string "x")) ∧
      (roles.Holds [.member "user", .member "$0", .item 1, .item 1] (.integer 7) ∧
        default.evaluate (.string "$user.$0[1][1]") roles = .ok (.integer 7)) ∧
      (roles.Holds [.member "user,$0"] (.boolean false) ∧
        default.evaluate (.string "$user,$0") roles = .ok (.boolean false)) ∧
      roles.Holds [.member "rate"] (.float half) ∧
        default.evaluate (.string "$rate") roles = .ok (.float half) := by
  have hstring : roles.Holds [.member "user", .member "$0", .item 0] (.string "x") :=
    ⟨_, .member (.head _) (.member (.head _) (.item rfl (.root _))), .string "x"⟩
  have hinteger : roles.Holds [.member "user", .member "$0", .item 1, .item 1] (.integer 7) :=
    ⟨_, .member (.head _) (.member (.head _) (.item rfl (.item rfl (.root _)))), .integer 7⟩
  have hboolean : roles.Holds [.member "user,$0"] (.boolean false) :=
    ⟨_, .member (.tail _ (.head _)) (.root _), .boolean false⟩
  have hdouble : roles.Holds [.member "rate"] (.float half) :=
    ⟨_, .member (.tail _ (.tail _ (.head _))) (.root _), .double half rfl⟩
  have hobject : ∃ members, roles = .object members := ⟨_, rfl⟩
  obtain ⟨-, -, hevaluate⟩ := evaluate_pathOf (.inl hobject) rfl plainKeys_roles
  have hat : ∀ {p : List Step} {v : Value} {text : String}, roles.Holds p v → p.length ≤ 128 →
      "$" ++ Context.pathOf p = text → default.evaluate (.string text) roles = .ok v := by
    rintro p v _ hv hdepth rfl
    exact hevaluate p v hv hdepth
  refine ⟨⟨hstring, hat hstring ?_ ?_⟩, ⟨hinteger, hat hinteger ?_ ?_⟩,
    ⟨hboolean, hat hboolean ?_ ?_⟩, hdouble, hat hdouble ?_ ?_⟩ <;> decide

end Engine

end RuleLogic

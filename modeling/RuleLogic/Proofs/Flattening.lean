import RuleLogic.Proofs.Document

/-! Flattening by positions. The leaves of a document are its scalars down to the greatest depth,
each under the path of its position, and where the keys are plain the path tells the position. -/
namespace RuleLogic

def Step.text : Step → List Char
  | member key => '.' :: key.toList
  | item index => '[' :: Nat.toDigits 10 index ++ [']']

namespace Context

/-- The path one step further down: a key joins the path with a dot, or stands alone where that is
empty, and an index follows it in brackets. -/
def stepPath (path : String) : Step → String
  | .member key => if path = "" then key else path ++ "." ++ key
  | .item index => path ++ "[" ++ toString index ++ "]"

theorem memberPath_eq (path key : String) : memberPath path key = stepPath path (.member key) := by
  simp [memberPath, stepPath]

theorem itemPath_eq (path : String) (index : Nat) :
    itemPath path index = stepPath path (.item index) := rfl

def pathFrom (path : String) (steps : List Step) : String := steps.foldl stepPath path

def pathOf (steps : List Step) : String := pathFrom "" steps

def textOf (steps : List Step) : List Char := steps.flatMap Step.text

theorem head_textOf {steps : List Step} : ∀ c ∈ (textOf steps).head?, c = '.' ∨ c = '[' := by
  intro c hc
  cases steps with
  | nil => contradiction
  | cons step rest =>
    cases step with
    | member key => exact .inl (Option.some.inj hc).symm
    | item index => exact .inr (Option.some.inj hc).symm

theorem toList_stepPath {path : String} (h : path ≠ "") (step : Step) :
    (stepPath path step).toList = path.toList ++ step.text := by
  cases step with
  | member key => simp [stepPath, h, Step.text]
  | item index => simp [← itemPath_eq, itemPath, Step.text]

theorem toList_pathFrom {path : String} (h : path ≠ "") (steps : List Step) :
    (pathFrom path steps).toList = path.toList ++ textOf steps := by
  induction steps generalizing path with
  | nil => exact (List.append_nil _).symm
  | cons step rest ih =>
    have hne : stepPath path step ≠ "" := by
      rw [← String.toList_inj.ne, toList_stepPath h]
      simp [h]
    rw [pathFrom, List.foldl_cons, ← pathFrom, ih hne, toList_stepPath h, List.append_assoc]
    rfl

theorem pathOf_member_empty (rest : List Step) : pathOf (.member "" :: rest) = pathOf rest := rfl

theorem toList_pathOf_member {key : String} (h : key ≠ "") (rest : List Step) :
    (pathOf (.member key :: rest)).toList = key.toList ++ textOf rest :=
  toList_pathFrom h rest

theorem toList_pathOf_item (index : Nat) (rest : List Step) :
    (pathOf (.item index :: rest)).toList = textOf (.item index :: rest) := by
  have hitem : (stepPath "" (.item index)).toList = (Step.item index).text := by
    simp [← itemPath_eq, itemPath, Step.text]
  have hne : stepPath "" (.item index) ≠ "" := by
    rw [← String.toList_inj.ne, hitem]
    exact List.cons_ne_nil _ _
  rw [textOf, List.flatMap_cons, ← hitem]
  exact toList_pathFrom hne rest

theorem textOf_eq_nil_iff {steps : List Step} : textOf steps = [] ↔ steps = [] := by
  cases steps with
  | nil => simp [textOf]
  | cons step rest => cases step <;> simp [textOf, Step.text]

/-- A path without dots and brackets is that of a member of the root, or of one below members with
empty keys only. -/
theorem pathOf_eq_iff {name : String} (hne : name ≠ "")
    (hname : ∀ c ∈ name.toList, c ≠ '.' ∧ c ≠ '[') {steps : List Step} :
    pathOf steps = name ↔ ∃ n, steps = List.replicate n (.member "") ++ [.member name] := by
  constructor
  · intro h
    induction steps with
    | nil => exact absurd h.symm hne
    | cons step rest ih =>
      have hno : ∀ c ∈ name.toList, ¬(c = '.' ∨ c = '[') :=
        fun c hc => not_or.2 (hname c hc)
      cases step with
      | item index =>
        rw [← String.toList_inj, toList_pathOf_item] at h
        have hmem : '[' ∈ name.toList := h ▸ List.mem_cons_self ..
        exact absurd (.inr rfl) (hno '[' hmem)
      | member key =>
        by_cases hkey : key = ""
        · subst hkey
          obtain ⟨n, rfl⟩ := ih h
          exact ⟨n + 1, rfl⟩
        · rw [← String.toList_inj, toList_pathOf_member hkey] at h
          cases hrest : textOf rest with
          | nil =>
            rw [hrest, List.append_nil, String.toList_inj] at h
            exact ⟨0, by rw [h, textOf_eq_nil_iff.1 hrest]; rfl⟩
          | cons c cs =>
            have hmem : c ∈ name.toList := by
              rw [← h, hrest]
              simp
            exact absurd (head_textOf c (by rw [hrest]; rfl)) (hno c hmem)
  · rintro ⟨n, rfl⟩
    induction n with
    | zero => rfl
    | succ n ih => exact (pathOf_member_empty _).trans ih

/-- The scalars that are nested no deeper than the limit, below a path at a depth. -/
def place (path : String) (depth : Nat) (scalars : List (List Step × Value)) :
    List (String × Value) :=
  (scalars.filter fun s => depth + s.1.length ≤ maxDepth).map fun s => (pathFrom path s.1, s.2)

theorem mem_place {path : String} {depth : Nat} {scalars : List (List Step × Value)}
    {e : String × Value} :
    e ∈ place path depth scalars ↔
      ∃ s ∈ scalars, depth + s.1.length ≤ maxDepth ∧ (pathFrom path s.1, s.2) = e := by
  simp only [place, List.mem_map, List.mem_filter, decide_eq_true_eq, and_assoc]

theorem place_append (path : String) (depth : Nat) (xs ys : List (List Step × Value)) :
    place path depth (xs ++ ys) = place path depth xs ++ place path depth ys := by
  rw [place, List.filter_append, List.map_append]
  rfl

theorem place_step (path : String) (depth : Nat) (step : Step)
    (scalars : List (List Step × Value)) :
    place path depth (scalars.map fun s => (step :: s.1, s.2)) =
      place (stepPath path step) (depth + 1) scalars := by
  have hdepth : ∀ s : List Step × Value,
      depth + (s.1.length + 1) = depth + 1 + s.1.length := fun s => by omega
  simp only [place, List.filter_map, List.map_map, Function.comp_def, List.length_cons, hdepth]
  rfl

theorem memberLeaves_eq {path : String} {depth : Nat} {members : List (String × Json)}
    (h : ∀ e ∈ members, ∀ path depth, leaves path depth e.2 = place path depth e.2.scalars) :
    memberLeaves path (depth + 1) members = place path depth (Json.memberScalars members) := by
  induction members with
  | nil => rfl
  | cons e rest ih =>
    obtain ⟨he, hrest⟩ := List.forall_mem_cons.1 h
    rw [memberLeaves, Json.memberScalars, place_append, place_step, ih hrest, he, memberPath_eq]

theorem itemLeaves_eq {path : String} {depth index : Nat} {items : List Json}
    (h : ∀ x ∈ items, ∀ path depth, leaves path depth x = place path depth x.scalars) :
    itemLeaves path (depth + 1) index items = place path depth (Json.itemScalars index items) := by
  induction items generalizing index with
  | nil => rfl
  | cons x rest ih =>
    obtain ⟨hx, hrest⟩ := List.forall_mem_cons.1 h
    rw [itemLeaves, Json.itemScalars, place_append, place_step, ih hrest, hx, itemPath_eq]

theorem place_of_lt {depth : Nat} (h : maxDepth < depth) (path : String)
    (scalars : List (List Step × Value)) : place path depth scalars = [] := by
  refine List.eq_nil_iff_forall_not_mem.2 fun e he => ?_
  obtain ⟨s, -, hs, -⟩ := mem_place.1 he
  omega

theorem leaves_of_lt {depth : Nat} (h : maxDepth < depth) (path : String) (data : Json) :
    leaves path depth data = [] := by
  unfold leaves
  exact if_pos h

theorem leaves_eq_place (path : String) (depth : Nat) (data : Json) :
    leaves path depth data = place path depth data.scalars := by
  induction data using Json.induction generalizing path depth with
  | array items ih =>
    by_cases hd : maxDepth < depth
    · rw [leaves_of_lt hd, place_of_lt hd]
    · rw [leaves, if_neg hd]
      exact itemLeaves_eq ih
  | object members ih =>
    by_cases hd : maxDepth < depth
    · rw [leaves_of_lt hd, place_of_lt hd]
    · rw [leaves, if_neg hd]
      exact memberLeaves_eq ih
  | _ =>
    rw [Json.scalars_leaf (by nofun) (by nofun)]
    by_cases hd : maxDepth < depth
    · rw [leaves_of_lt hd, place_of_lt hd]
    · simp [leaves, place, hd, Nat.not_lt.1 hd, Value.ofScalar?, pathFrom]

def isExport : Json → Bool
  | .object members =>
    match members.lookup "_flattenContext" with
    | some (.string s) => s == "_flattenContext"
    | _ => false
  | _ => false

theorem ofJson?_eq_place {data : Json} (hnull : data ≠ .null) (h : isExport data = false) :
    ofJson? data = some (ofPairs (place "" 0 data.scalars)) := by
  rw [← leaves_eq_place]
  cases data with
  | null => contradiction
  | object members =>
    have hmarked : isMarked members = false := h
    simp [ofJson?, hmarked]
  | _ => rfl

theorem mem_place_root {data : Json} {e : String × Value} :
    e ∈ place "" 0 data.scalars ↔
      ∃ steps, data.Holds steps e.2 ∧ steps.length ≤ maxDepth ∧ pathOf steps = e.1 := by
  rw [mem_place]
  constructor
  · rintro ⟨s, hs, hdepth, rfl⟩
    rw [Nat.zero_add] at hdepth
    exact ⟨s.1, Json.mem_scalars_iff.1 hs, hdepth, rfl⟩
  · rintro ⟨steps, hv, hdepth, hpath⟩
    refine ⟨(steps, e.2), Json.mem_scalars_iff.2 hv, ?_, Prod.ext hpath rfl⟩
    rwa [Nat.zero_add]

end Context

end RuleLogic

import RuleLogic.Proofs.Ignored

/-! Substitutions in a path. Each one takes an opening brace out of the path and brings in those of
the text that it puts there. Where the texts of a context have none, a path is settled after at most
as many substitutions as it has opening braces; in any context the count ends at the limit. -/
namespace RuleLogic

namespace Segment

variable {s : Segment} {cs : List Char}

structure CutFrom (s : Segment) (cs : List Char) : Prop where
  eq_append : cs = s.before ++ '\x7b' :: s.inside ++ '\x7d' :: s.after
  inside_ne_nil : s.inside ≠ []
  inside_plain : ∀ c ∈ s.inside, isBrace c = false

theorem cutFrom_of_innermost? (h : innermost? cs = some s) : s.CutFrom cs := by
  obtain ⟨happend, hne, hplain⟩ := innermost?_eq_some h
  exact ⟨happend, hne, hplain⟩

theorem atHead?_of_plain {inside : List Char} (hne : inside ≠ [])
    (hplain : ∀ c ∈ inside, isBrace c = false) (after : List Char) :
    atHead? ('\x7b' :: (inside ++ '\x7d' :: after)) = some ⟨[], inside, after⟩ := by
  have hbrace : isBrace '\x7d' = true := rfl
  have htake : (inside ++ '\x7d' :: after).takeWhile (!isBrace ·) = inside := by
    rw [List.takeWhile_append_of_pos (by simpa using hplain)]
    simp [hbrace]
  have hdrop : (inside ++ '\x7d' :: after).dropWhile (!isBrace ·) = '\x7d' :: after := by
    rw [List.dropWhile_append_of_pos (by simpa using hplain)]
    simp [hbrace]
  unfold atHead?
  simp only [htake, hdrop]
  cases inside with
  | nil => contradiction
  | cons c inside => rfl

theorem isSome_innermost?_cons {c : Char} (h : (innermost? cs).isSome = true) :
    (innermost? (c :: cs)).isSome = true := by
  unfold innermost?
  split
  · rfl
  · rw [Option.isSome_map]
    exact h

theorem isSome_innermost? (h : s.CutFrom cs) : (innermost? cs).isSome = true := by
  have hhead := atHead?_of_plain h.inside_ne_nil h.inside_plain s.after
  rw [h.eq_append, List.append_assoc]
  generalize s.before = before
  -- a search that begins in front of the segment finds that one, or one before it
  induction before with
  | nil => simp [innermost?, hhead]
  | cons c before ih => exact isSome_innermost?_cons ih

theorem innermost?_eq_none_iff : innermost? cs = none ↔ ∀ s : Segment, ¬s.CutFrom cs := by
  constructor
  · intro h s hs
    have hsome := isSome_innermost? hs
    rw [h] at hsome
    contradiction
  · intro h
    apply Option.eq_none_iff_forall_ne_some.2
    intro s hs
    exact h s (cutFrom_of_innermost? hs)

theorem CutFrom.count_pos (h : s.CutFrom cs) : 0 < cs.count '\x7b' := by
  rw [h.eq_append]
  simp

theorem CutFrom.count_fill (h : s.CutFrom cs) (v : Value) :
    (s.fill v).toList.count '\x7b' + 1 = cs.count '\x7b' + v.text.toList.count '\x7b' := by
  have hinside : s.inside.count '\x7b' = 0 := by
    apply List.count_eq_zero.2
    intro hmem
    have hplain := h.inside_plain _ hmem
    contradiction
  have htext : cs.count '\x7b' = s.before.count '\x7b' + (s.after.count '\x7b' + 1) := by
    rw [h.eq_append]
    simp [hinside]
  have hfill : (s.fill v).toList.count '\x7b' =
      s.before.count '\x7b' + (v.text.toList.count '\x7b' + s.after.count '\x7b') := by
    simp [fill]
  omega

end Segment

namespace Context

variable {data : Context} {budget : Nat} {path : String}

/-- No value brings an opening brace into a path. Closing braces do no harm. -/
def OpensNothing (data : Context) : Prop := ∀ e ∈ data.entries, '\x7b' ∉ e.2.text.toList

theorem OpensNothing.count_fill (h : data.OpensNothing) {s : Segment} {cs : List Char}
    (hs : s.CutFrom cs) {v : Value} (hv : data.get? s.path = some v) :
    (s.fill v).toList.count '\x7b' + 1 = cs.count '\x7b' := by
  have hcount := hs.count_fill v
  have htext : v.text.toList.count '\x7b' = 0 :=
    List.count_eq_zero.2 (h _ (Entries.mem_of_lookup hv))
  omega

theorem length_embeddedWithin_le (data : Context) (budget : Nat) (path : String) :
    (data.embeddedWithin budget path).length ≤ budget := by
  fun_induction embeddedWithin data budget path with
  | case1 budget path hs => exact Nat.zero_le budget
  | case2 path s hs => exact Nat.le_refl 0
  | case3 path s hs budget ih =>
    rw [List.length_cons]
    cases data.get? s.path with
    | none => exact Nat.succ_le_succ (Nat.zero_le budget)
    | some v => exact Nat.succ_le_succ (ih v)

theorem OpensNothing.length_embeddedWithin_le (h : data.OpensNothing) (budget : Nat)
    (path : String) : (data.embeddedWithin budget path).length ≤ path.toList.count '\x7b' := by
  fun_induction embeddedWithin data budget path with
  | case1 budget path hs => exact Nat.zero_le _
  | case2 path s hs => exact Nat.zero_le _
  | case3 path s hs budget ih =>
    have hcut := Segment.cutFrom_of_innermost? hs
    rw [List.length_cons]
    cases hv : data.get? s.path with
    | none => exact hcut.count_pos
    | some v =>
      rw [← h.count_fill hcut hv]
      exact Nat.succ_le_succ (ih v)

theorem OpensNothing.exists_resolveWithin (h : data.OpensNothing)
    (hcount : path.toList.count '\x7b' ≤ budget) : ∃ r, data.resolveWithin budget path = .ok r := by
  fun_induction resolveWithin data budget path with
  | case1 budget path hs => exact ⟨_, rfl⟩
  | case2 path s hs =>
    have hpos := (Segment.cutFrom_of_innermost? hs).count_pos
    omega
  | case3 path s hs budget hv => exact ⟨_, rfl⟩
  | case4 path s hs budget v hv ih =>
    have hfill := h.count_fill (Segment.cutFrom_of_innermost? hs) hv
    apply ih
    omega

/-- Looking a path up with the substitutions counted, from the number of those made before. The
limit is checked first; a segment without a value counts too, and is the last. -/
def resolveCounting (data : Context) (made : Nat) (path : String) :
    Nat × Except EvalFault Resolution :=
  match Segment.innermost? path.toList with
  | none => (made, .ok ⟨path, data.get? path⟩)
  | some segment =>
    if made < maxSubstitutions then
      match data.get? segment.path with
      | none => (made + 1, .ok ⟨path, none⟩)
      | some value => data.resolveCounting (made + 1) (segment.fill value)
    else (made, .error (.unsettledPath maxSubstitutions path))
termination_by maxSubstitutions - made

theorem resolveCounting_eq (data : Context) {made budget : Nat}
    (h : made + budget = maxSubstitutions) (path : String) :
    data.resolveCounting made path =
      (made + (data.embeddedWithin budget path).length, data.resolveWithin budget path) := by
  induction budget generalizing made path with
  | zero =>
    unfold resolveCounting
    cases hs : Segment.innermost? path.toList with
    | none => simp [embeddedWithin, hs, resolveWithin_plain hs]
    | some s =>
      have hspent : ¬made < maxSubstitutions := by omega
      simp [embeddedWithin, hs, resolveWithin_spent hs, hspent]
  | succ budget ih =>
    unfold resolveCounting
    cases hs : Segment.innermost? path.toList with
    | none => simp [embeddedWithin, hs, resolveWithin_plain hs]
    | some s =>
      have hleft : made < maxSubstitutions := by omega
      rw [embeddedWithin_segment hs, resolveWithin_segment hs]
      cases hv : data.get? s.path with
      | none => simp [hleft, hv]
      | some v =>
        have hmade : made + 1 + budget = maxSubstitutions := by omega
        have hrest := ih hmade (s.fill v)
        simp only [hleft, hv, hrest, if_true, List.length_cons]
        rw [Nat.add_right_comm, Nat.add_assoc]

/-- A path whose value is found has no segment left. At most as many substitutions are made as the
limit allows, and as the path has opening braces if no value brings in new ones: then a path with no
more of them than that is always settled. -/
theorem resolve_settles (data : Context) (path : String) :
    ∃ made, data.resolveCounting 0 path = (made, data.resolve path) ∧ made ≤ maxSubstitutions ∧
      (∀ found v, data.resolve path = .ok ⟨found, some v⟩ →
        data.get? found = some v ∧ ∀ s : Segment, ¬s.CutFrom found.toList) ∧
      (data.OpensNothing → made ≤ path.toList.count '\x7b' ∧
        (path.toList.count '\x7b' ≤ maxSubstitutions → ∃ r, data.resolve path = .ok r)) := by
  have hcounting := resolveCounting_eq data (Nat.zero_add maxSubstitutions) path
  rw [Nat.zero_add] at hcounting
  refine ⟨_, hcounting, length_embeddedWithin_le data maxSubstitutions path, ?_, ?_⟩
  · intro found v h
    obtain ⟨hs, hv⟩ := found_of_resolveWithin h
    exact ⟨hv, Segment.innermost?_eq_none_iff.1 hs⟩
  · intro h
    exact ⟨h.length_embeddedWithin_le maxSubstitutions path, h.exists_resolveWithin⟩

def strayPath : String := "\x7b\x7dx\x7ba\x7d\x7d\x7b"

def strayKey : String := "\x7b\x7dxb\x7d\x7b"

def strayBraces : Context := (empty.insert "a" (.string "b")).insert strayKey (.integer 7)

theorem resolve_settles_strayBraces :
    strayBraces.OpensNothing ∧ strayPath.toList.count '\x7b' ≤ maxSubstitutions ∧
      (∃ r, strayBraces.resolve strayPath = .ok r) ∧
      strayBraces.resolve strayPath = .ok ⟨strayKey, some (.integer 7)⟩ ∧
      (strayBraces.resolveCounting 0 strayPath).1 ≤ strayPath.toList.count '\x7b' ∧
      strayBraces.get? strayKey = some (.integer 7) ∧
      ∀ s : Segment, ¬s.CutFrom strayKey.toList := by
  have hopens : strayBraces.OpensNothing := by
    unfold OpensNothing
    decide
  have hcount : strayPath.toList.count '\x7b' ≤ maxSubstitutions := by decide
  have hresolve : strayBraces.resolve strayPath = .ok ⟨strayKey, some (.integer 7)⟩ := rfl
  obtain ⟨made, hcounting, -, hfound, hsettles⟩ := resolve_settles strayBraces strayPath
  obtain ⟨hmade, hsettled⟩ := hsettles hopens
  rw [hcounting]
  exact ⟨hopens, hcount, hsettled hcount, hresolve, hmade, hfound strayKey _ hresolve⟩

end Context

end RuleLogic

import RuleLogic.Simplification

/-! A context that grows. Entries are only added, so a path that was found is found again, with all
substitutions on the way, and a reference that was settled keeps its value. -/
namespace RuleLogic

namespace Context

/-- Everything found in the other context is found here, with the same value. -/
def Extends (d c : Context) : Prop :=
  ∀ path v, c.get? path = some v → d.get? path = some v

theorem Extends.refl (c : Context) : c.Extends c := fun _ _ h => h

theorem Extends.trans {e d c : Context} (h : e.Extends d) (h' : d.Extends c) : e.Extends c :=
  fun path v hv => h path v (h' path v hv)

theorem extends_insert {c : Context} {path : String} (h : c.get? path = none) (v : Value) :
    (c.insert path v).Extends c := by
  intro p w hp
  rw [get?_insert]
  split
  · rename_i heq
    rw [heq, h] at hp
    contradiction
  · exact hp

theorem resolveWithin_plain {path : String} (h : Segment.innermost? path.toList = none)
    (c : Context) (budget : Nat) : c.resolveWithin budget path = .ok ⟨path, c.get? path⟩ := by
  unfold resolveWithin
  simp only [h]

theorem resolveWithin_segment {path : String} {segment : Segment}
    (h : Segment.innermost? path.toList = some segment) (c : Context) (budget : Nat) :
    c.resolveWithin (budget + 1) path =
      match c.get? segment.path with
      | none => .ok ⟨path, none⟩
      | some value => c.resolveWithin budget (segment.fill value) := by
  rw [resolveWithin]
  cases hvalue : c.get? segment.path <;> simp only [h, hvalue]

theorem resolveWithin_spent {path : String} {segment : Segment}
    (h : Segment.innermost? path.toList = some segment) (c : Context) :
    c.resolveWithin 0 path = .error (.unsettledPath maxSubstitutions path) := by
  unfold resolveWithin
  simp only [h]

theorem found_of_resolveWithin {c : Context} {budget : Nat} {path found : String} {v : Value}
    (h : c.resolveWithin budget path = .ok ⟨found, some v⟩) :
    Segment.innermost? found.toList = none ∧ c.get? found = some v := by
  fun_induction resolveWithin c budget path with
  | case1 budget path hs =>
    obtain ⟨rfl, hv⟩ := Resolution.mk.inj (Except.ok.inj h)
    exact ⟨hs, hv⟩
  | case2 path segment hs => contradiction
  | case3 path segment hs budget hg => simp at h
  | case4 path segment hs budget value hg ih => exact ih h

theorem Extends.resolveWithin_plain {d c : Context} (h : d.Extends c) {budget : Nat}
    {path found : String} {v : Value} (hs : Segment.innermost? path.toList = none)
    (hr : c.resolveWithin budget path = .ok ⟨found, some v⟩) :
    d.resolveWithin budget path = .ok ⟨found, some v⟩ := by
  rw [Context.resolveWithin_plain hs] at hr ⊢
  injection hr with hr
  injection hr with hpath hvalue
  rw [h _ _ hvalue, hpath]

theorem Extends.resolveWithin {d c : Context} (h : d.Extends c) {budget : Nat}
    {path found : String} {v : Value}
    (hr : c.resolveWithin budget path = .ok ⟨found, some v⟩) :
    d.resolveWithin budget path = .ok ⟨found, some v⟩ := by
  induction budget generalizing path with
  | zero =>
    cases hs : Segment.innermost? path.toList with
    | none => exact h.resolveWithin_plain hs hr
    | some segment =>
      rw [resolveWithin_spent hs] at hr
      contradiction
  | succ budget ih =>
    cases hs : Segment.innermost? path.toList with
    | none => exact h.resolveWithin_plain hs hr
    | some segment =>
      rw [resolveWithin_segment hs] at hr ⊢
      cases hg : c.get? segment.path with
      | none =>
        rw [hg] at hr
        cases hr
      | some w =>
        rw [hg] at hr
        rw [h _ _ hg]
        exact ih hr

theorem Extends.resolve {d c : Context} (h : d.Extends c) {path found : String} {v : Value}
    (hr : c.resolve path = .ok ⟨found, some v⟩) : d.resolve path = .ok ⟨found, some v⟩ :=
  h.resolveWithin hr

end Context

namespace Reference

theorem settle?_eq_some_iff {r : Reference} {data : Context} {w : Value} :
    r.settle? data = some w ↔
      ∃ found v, data.resolve r.path = .ok ⟨found, some v⟩ ∧ r.isIgnored found = false ∧
        v.cast r.type = .ok w := by
  unfold settle?
  constructor
  · intro h
    split at h
    · contradiction
    · rename_i found value hr
      split at h
      · contradiction
      · rename_i hi
        obtain ⟨v, rfl, hc⟩ := Option.bind_eq_some_iff.1 h
        refine ⟨found, v, hr, by simpa using hi, ?_⟩
        cases hv : v.cast r.type <;> simp_all [Except.toOption]
  · rintro ⟨found, v, hr, hi, hc⟩
    simp [hr, hi, hc, Except.toOption]

theorem settle?_extends {r : Reference} {c d : Context} (h : d.Extends c) {v : Value}
    (hs : r.settle? c = some v) : r.settle? d = some v := by
  obtain ⟨found, w, hr, hi, hc⟩ := settle?_eq_some_iff.1 hs
  exact settle?_eq_some_iff.2 ⟨found, w, h.resolve hr, hi, hc⟩

theorem evaluate_of_settle? {r : Reference} {data : Context} {v : Value}
    (hs : r.settle? data = some v) : r.evaluate data = .ok v := by
  obtain ⟨found, w, hr, _, hc⟩ := settle?_eq_some_iff.1 hs
  simp [evaluate, hr, hc]

end Reference

/-! A context that grows, for the fixed inputs of later modules. -/

def Expr.lookup (path : String) : Expr := .reference ⟨path, path, .undefined, .default⟩

namespace Context

def knownA : Context := empty.insert "a" (.boolean true)

def knownAll : Context := (knownA.insert "b" (.boolean false)).insert "c" (.boolean true)

theorem knownAll_extends : knownAll.Extends knownA :=
  (extends_insert rfl _).trans (extends_insert rfl _)

end Context

end RuleLogic

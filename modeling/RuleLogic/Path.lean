import RuleLogic.Context
import RuleLogic.EvalFault

/-!
Looking up a path. Segments in braces are paths of their own: the leftmost innermost one is replaced
by the text of its value until none is left, and then the whole path is looked up.
-/
namespace RuleLogic

/-- A text cut at a segment in braces, the braces themselves left out. -/
structure Segment where
  before : List Char
  inside : List Char
  after : List Char
deriving DecidableEq, Repr

namespace Segment

def isBrace (c : Char) : Bool := c == '\x7b' || c == '\x7d'

def addBefore (c : Char) (s : Segment) : Segment := { s with before := c :: s.before }

def atHead? : List Char → Option Segment
  | '\x7b' :: cs =>
    match cs.takeWhile (!isBrace ·), cs.dropWhile (!isBrace ·) with
    | c :: inside, '\x7d' :: after => some ⟨[], c :: inside, after⟩
    | _, _ => none
  | _ => none

/-- The leftmost segment that holds some text and no braces. -/
def innermost? : List Char → Option Segment
  | [] => none
  | c :: cs =>
    match atHead? (c :: cs) with
    | some s => some s
    | none => (innermost? cs).map (addBefore c)

theorem atHead?_eq_some {cs : List Char} {s : Segment} (h : atHead? cs = some s) :
    cs = s.before ++ '\x7b' :: s.inside ++ '\x7d' :: s.after ∧ s.inside ≠ [] ∧
      ∀ c ∈ s.inside, isBrace c = false := by
  unfold atHead? at h
  split at h
  · rename_i cs
    split at h
    · rename_i c inside after htake hdrop
      obtain rfl := Option.some.inj h
      have hall := List.all_takeWhile (p := (!isBrace ·)) (l := cs)
      refine ⟨?_, by simp, fun d hd => ?_⟩
      · simp [← htake, ← hdrop, List.takeWhile_append_dropWhile]
      · rw [htake] at hall
        simpa using List.all_eq_true.1 hall d hd
    · contradiction
  · contradiction

theorem innermost?_eq_some {cs : List Char} {s : Segment} (h : innermost? cs = some s) :
    cs = s.before ++ '\x7b' :: s.inside ++ '\x7d' :: s.after ∧ s.inside ≠ [] ∧
      ∀ c ∈ s.inside, isBrace c = false := by
  fun_induction innermost? cs generalizing s with
  | case1 => contradiction
  | case2 c cs t hat => exact atHead?_eq_some (hat.trans h)
  | case3 c cs hat ih =>
    obtain ⟨t, ht, rfl⟩ := Option.map_eq_some_iff.1 h
    obtain ⟨rfl, hne, hbrace⟩ := ih ht
    exact ⟨by simp [addBefore], hne, hbrace⟩

def path (s : Segment) : String := String.ofList s.inside

def fill (s : Segment) (value : Value) : String :=
  String.ofList (s.before ++ value.text.toList ++ s.after)

end Segment

structure Resolution where
  path : String
  value : Option Value
deriving Repr

namespace Context

def maxSubstitutions : Nat := 32

/-- Looks a path up within a number of substitutions. A segment without a value ends the look-up
where it is. -/
def resolveWithin (data : Context) (budget : Nat) (path : String) : Except EvalFault Resolution :=
  match Segment.innermost? path.toList with
  | none => .ok ⟨path, data.get? path⟩
  | some segment =>
    match budget with
    | 0 => .error (.unsettledPath maxSubstitutions path)
    | budget + 1 =>
      match data.get? segment.path with
      | none => .ok ⟨path, none⟩
      | some value => data.resolveWithin budget (segment.fill value)

def resolve (data : Context) (path : String) : Except EvalFault Resolution :=
  data.resolveWithin maxSubstitutions path

end Context

end RuleLogic

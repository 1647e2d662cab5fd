import RuleLogic.TokenTable

/-!
What reading, writing and simplifying go by: operator tokens, the format that marks a string as a
reference, the escape that keeps a list from being read as an expression, the paths that simplifying
leaves alone, and the depth limit. Formats and patterns of paths may be any; affixes are the format
of configurations.
-/
namespace RuleLogic

/-- The address in a string that is a reference, and the string for an address. -/
structure AddressFormat where
  strip? : String → Option String
  render : String → String

structure Affix where
  before : String
  after : String
deriving DecidableEq, Repr

namespace Affix

def default : Affix := ⟨"$", ""⟩

def dropHead? : List Char → List Char → Option (List Char)
  | [], cs => some cs
  | _ :: _, [] => none
  | p :: ps, c :: cs => if p = c then dropHead? ps cs else none

def dropTail? (tail cs : List Char) : Option (List Char) :=
  (dropHead? tail.reverse cs.reverse).map List.reverse

theorem dropHead?_eq_some_iff {head cs rest : List Char} :
    dropHead? head cs = some rest ↔ cs = head ++ rest := by
  fun_induction dropHead? head cs with
  | case1 => simp [eq_comm]
  | case2 => simp
  | case3 p ps cs ih => simp [ih]
  | case4 p ps c cs h => simp [Ne.symm h]

theorem dropTail?_eq_some_iff {tail cs rest : List Char} :
    dropTail? tail cs = some rest ↔ cs = rest ++ tail := by
  simp only [dropTail?, Option.map_eq_some_iff, dropHead?_eq_some_iff]
  constructor
  · rintro ⟨r, h, rfl⟩
    simpa using congrArg List.reverse h
  · rintro rfl
    exact ⟨rest.reverse, by simp⟩

/-- The address in a reference, which is never empty. -/
def strip? (affix : Affix) (raw : String) : Option String :=
  match (dropHead? affix.before.toList raw.toList).bind (dropTail? affix.after.toList) with
  | none => none
  | some [] => none
  | some (c :: cs) => some (String.ofList (c :: cs))

def render (affix : Affix) (address : String) : String := affix.before ++ address ++ affix.after

def format (affix : Affix) : AddressFormat := ⟨affix.strip?, affix.render⟩

end Affix

structure IgnoredPaths where
  paths : List String
  patterns : List (String → Bool)

namespace IgnoredPaths

def none : IgnoredPaths := ⟨[], []⟩

def contains (ignored : IgnoredPaths) (path : String) : Bool :=
  ignored.paths.any (· == path) || ignored.patterns.any fun accepts => accepts path

def isEmpty (ignored : IgnoredPaths) : Bool := ignored.paths.isEmpty && ignored.patterns.isEmpty

end IgnoredPaths

/-- The settings that an expression is read with and carries along. An empty escape turns escaping
off. -/
structure Options where
  operators : TokenTable
  affix : AddressFormat
  ignored : IgnoredPaths
  escape : String
  maxDepth : Nat

namespace Options

def defaultEscape : String := "\\"

def defaultMaxDepth : Nat := 128

def default : Options := ⟨.default, Affix.default.format, .none, defaultEscape, defaultMaxDepth⟩

instance : Inhabited Options := ⟨default⟩

def unescape? (o : Options) (head : String) : Option String :=
  if o.escape == "" then none else (Affix.dropHead? o.escape.toList head.toList).map String.ofList

def isEscaped (o : Options) (head : String) : Bool := (o.unescape? head).isSome

def unescape (o : Options) (head : String) : String := (o.unescape? head).getD head

def escaped (o : Options) (head : String) : String := o.escape ++ head

end Options

end RuleLogic

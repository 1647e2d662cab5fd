import RuleLogic.Diagnostic
import RuleLogic.Options

/-!
Configurations: the settings of an engine as a document holds them. Every member may be left out.
The operators are renamed in the order of their names, and then the patterns are compiled in theirs;
the first that is not valid is the fault. What patterns are and match is left to their compiler.
-/
namespace RuleLogic

/-- Settings as written; operator names and patterns may be invalid. Operators are sorted by name,
each at most once. -/
structure Config where
  operators : List (String × String)
  escape : String
  affix : Affix
  ignoredPaths : List String
  ignoredPatterns : List String
  maxDepth : Nat
  sorted : operators.Pairwise (fun a b => a.1 < b.1)
deriving DecidableEq

/-- The paths that a pattern matches, or why it is none, as far as that is said. -/
abbrev PatternCompiler : Type := String → Except (Option String) (String → Bool)

inductive ConfigFault where
  | unknownOperator (name : String)
  | invalidPattern (source : String) (reason : Option String := none)
deriving DecidableEq, Repr

namespace ConfigFault

def code : ConfigFault → Code
  | unknownOperator _ => ⟨200⟩
  | invalidPattern .. => ⟨201⟩

def message : ConfigFault → String
  | unknownOperator name => s!"unknown operator \"{name}\""
  | invalidPattern source none => s!"invalid ignored path pattern \"{source}\""
  | invalidPattern source (some reason) =>
    s!"invalid ignored path pattern \"{source}\": {reason}"

def diagnostic (f : ConfigFault) : Diagnostic := ⟨.configuration, f.code, f.message, none⟩

end ConfigFault

namespace Config

def default : Config where
  operators := []
  escape := Options.defaultEscape
  affix := .default
  ignoredPaths := []
  ignoredPatterns := []
  maxDepth := Options.defaultMaxDepth
  sorted := .nil

instance : Inhabited Config := ⟨default⟩

def insertSorted (name token : String) : List (String × String) → List (String × String)
  | [] => [(name, token)]
  | e :: rest =>
    if name < e.1 then (name, token) :: e :: rest
    else if name = e.1 then (name, token) :: rest
    else e :: insertSorted name token rest

theorem mem_insertSorted {name token : String} {e : String × String}
    {entries : List (String × String)} (h : e ∈ insertSorted name token entries) :
    e = (name, token) ∨ e ∈ entries := by
  fun_induction insertSorted name token entries <;> simp_all <;> grind

theorem sorted_insertSorted (name token : String) {entries : List (String × String)}
    (h : entries.Pairwise (fun a b => a.1 < b.1)) :
    (insertSorted name token entries).Pairwise (fun a b => a.1 < b.1) := by
  fun_induction insertSorted name token entries with
  | case1 => simp
  | case2 e rest hlt =>
    refine List.pairwise_cons.2 ⟨?_, h⟩
    intro a ha
    rcases List.mem_cons.1 ha with rfl | ha
    · exact hlt
    · exact String.lt_trans hlt (List.rel_of_pairwise_cons h ha)
  | case3 e rest _ heq =>
    exact List.pairwise_cons.2 ⟨fun a ha => heq ▸ List.rel_of_pairwise_cons h ha, h.of_cons⟩
  | case4 e rest hlt hne ih =>
    refine List.pairwise_cons.2 ⟨?_, ih h.of_cons⟩
    intro a ha
    rcases mem_insertSorted ha with rfl | ha
    · exact Std.lt_of_le_of_ne (String.not_lt.1 hlt) (Ne.symm hne)
    · exact List.rel_of_pairwise_cons h ha

def setOperator (c : Config) (name token : String) : Config :=
  { c with
    operators := insertSorted name token c.operators
    sorted := sorted_insertSorted name token c.sorted }

def renameAll (t : TokenTable) : List (String × String) → Except ConfigFault TokenTable
  | [] => .ok t
  | (name, token) :: rest =>
    match Operator.ofName? name with
    | some op => renameAll (t.rename op token) rest
    | none => .error (.unknownOperator name)

def compileAll (compile : PatternCompiler) : List String → Except ConfigFault (List (String → Bool))
  | [] => .ok []
  | source :: rest =>
    match compile source with
    | .error reason => .error (.invalidPattern source reason)
    | .ok accepts => do return accepts :: (← compileAll compile rest)

def options (compile : PatternCompiler) (c : Config) : Except ConfigFault Options := do
  let operators ← renameAll .default c.operators
  let patterns ← compileAll compile c.ignoredPatterns
  return ⟨operators, c.affix.format, ⟨c.ignoredPaths, patterns⟩, c.escape, c.maxDepth⟩

def stringOf? : Json → Option String
  | .string s => some s
  | _ => none

def stringsOf? : Json → Option (List String)
  | .array items => items.mapM stringOf?
  | _ => none

def natOf? : Json → Option Nat
  | .number (.integer n) => if 0 ≤ n.toInt then some n.toInt.toNat else none
  | .number (.large n) => some n.toNat
  | _ => none

def field? {α : Type} (members : List (String × Json)) (name : String) (read? : Json → Option α)
    (default : α) : Option α :=
  match members.lookup name with
  | none => some default
  | some data => read? data

def setOperators? (c : Config) : List (String × Json) → Option Config
  | [] => some c
  | (name, data) :: rest => do setOperators? (c.setOperator name (← stringOf? data)) rest

def ofJson? : Json → Option Config
  | .object members => do
    let escape ← field? members "escape_character" stringOf? default.escape
    let before ← field? members "reference_prefix" stringOf? default.affix.before
    let after ← field? members "reference_suffix" stringOf? default.affix.after
    let paths ← field? members "ignored_paths" stringsOf? []
    let patterns ← field? members "ignored_patterns" stringsOf? []
    let depth ← field? members "max_depth" natOf? default.maxDepth
    let plain : Config := ⟨[], escape, ⟨before, after⟩, paths, patterns, depth, .nil⟩
    match members.lookup "operators" with
    | none => some plain
    | some (.object operators) => plain.setOperators? operators
    | some _ => none
  | _ => none

def toJson (c : Config) : Json :=
  .object [
    ("operators", .object (c.operators.map fun (name, token) => (name, .string token))),
    ("escape_character", .string c.escape),
    ("reference_prefix", .string c.affix.before),
    ("reference_suffix", .string c.affix.after),
    ("ignored_paths", .array (c.ignoredPaths.map .string)),
    ("ignored_patterns", .array (c.ignoredPatterns.map .string)),
    ("max_depth", .number (.ofNat c.maxDepth))]

end Config

end RuleLogic

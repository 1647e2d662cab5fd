import RuleLogic.Pattern
import RuleLogic.Decimal

/-!
Reading a pattern: literals, `.`, the anchors `^` and `$`, `\d`, escaped punctuation, classes,
groups, alternatives and the repetitions `*`, `+`, `?` and `{m,n}`, each followed by a `?` if it is
lazy. Anything else is refused, as is a repetition with nothing to repeat or with its bounds
reversed.
-/
namespace RuleLogic.Pattern

def escape? (c : Char) : Option CharSet :=
  if c = 'd' then some .digit
  else if c.toNat < 0x80 ∧ 0x20 < c.toNat ∧ !c.isAlphanum ∧ c ≠ '<' ∧ c ≠ '>' then some (.single c)
  else none

def readClassItem? : List Char → Option (CharSet × List Char)
  | '\\' :: c :: rest => (escape? c).map fun set => (set, rest)
  | '\\' :: [] => none
  | '[' :: _ => none
  | c :: rest => some (.single c, rest)
  | [] => none

/-- The ranges of a class up to its closing bracket. A dash before the bracket stands for itself,
and two of anything that could join classes are refused. -/
def readRanges? : Nat → List Char → Option (List (Char × Char) × List Char)
  | 0, _ => none
  | fuel + 1, cs =>
    match cs with
    | ']' :: rest => some ([], rest)
    | '-' :: '-' :: _ => none
    | '&' :: '&' :: _ => none
    | '~' :: '~' :: _ => none
    | cs => do
      let (low, rest) ← readClassItem? cs
      let range : Option (List (Char × Char) × List Char) := match rest with
        | '-' :: ']' :: _ => some (low.ranges, rest)
        | '-' :: '-' :: _ => some (low.ranges, rest)
        | '-' :: rest => do
          let (high, rest) ← readClassItem? rest
          match low.ranges, high.ranges with
          | [(a, b)], [(c, d)] => if a = b ∧ c = d ∧ a ≤ c then some ([(a, c)], rest) else none
          | _, _ => none
        | rest => some (low.ranges, rest)
      let (range, rest) ← range
      let (ranges, rest) ← readRanges? fuel rest
      some (range ++ ranges, rest)

def splitClassHead : List Char → List Char × List Char
  | ']' :: cs => ([']'], cs)
  | cs => (cs.takeWhile (· == '-'), cs.dropWhile (· == '-'))

def readClass? (fuel : Nat) (cs : List Char) : Option (CharSet × List Char) := do
  let (negated, cs) := match cs with
    | '^' :: cs => (true, cs)
    | cs => (false, cs)
  let (head, cs) := splitClassHead cs
  let (ranges, rest) ← readRanges? fuel cs
  some (⟨negated, head.map (fun c => (c, c)) ++ ranges⟩, rest)

def readBounds? (cs : List Char) : Option (Nat × Option Nat × List Char) :=
  let least := cs.takeWhile Char.isDigit
  if least.isEmpty then none
  else
    let low := Decimal.natOfDigits least
    match cs.dropWhile Char.isDigit with
    | '\x7d' :: rest => some (low, some low, rest)
    | ',' :: rest =>
      let most := rest.takeWhile Char.isDigit
      match rest.dropWhile Char.isDigit with
      | '\x7d' :: rest =>
        if most.isEmpty then some (low, none, rest)
        else
          let high := Decimal.natOfDigits most
          if low ≤ high then some (low, some high, rest) else none
      | _ => none
    | _ => none

/-- Lazy and greedy repetition match the same texts. -/
def skipLazy : List Char → List Char
  | '?' :: cs => cs
  | cs => cs

def readRepeats? :
    Nat → Pattern CharSet → List Char → Option (Pattern CharSet × List Char)
  | 0, _, _ => none
  | fuel + 1, p, cs =>
    match cs with
    | '*' :: rest => readRepeats? fuel (.repeated p 0 none) (skipLazy rest)
    | '+' :: rest => readRepeats? fuel (.repeated p 1 none) (skipLazy rest)
    | '?' :: rest => readRepeats? fuel (.repeated p 0 (some 1)) (skipLazy rest)
    | '\x7b' :: rest =>
      match readBounds? rest with
      | some (least, most, rest) => readRepeats? fuel (.repeated p least most) (skipLazy rest)
      | none => none
    | rest => some (p, rest)

mutual

def readAlternatives? : Nat → List Char → Option (Pattern CharSet × List Char)
  | 0, _ => none
  | fuel + 1, cs => do
    let (first, rest) ← readRow? fuel cs
    match rest with
    | '|' :: rest =>
      let (second, rest) ← readAlternatives? fuel rest
      some (.either first second, rest)
    | rest => some (first, rest)

def readRow? : Nat → List Char → Option (Pattern CharSet × List Char)
  | 0, _ => none
  | fuel + 1, cs =>
    match cs with
    | [] => some (.empty, [])
    | '|' :: _ => some (.empty, cs)
    | ')' :: _ => some (.empty, cs)
    | cs => do
      let (atom, rest) ← readAtom? fuel cs
      let (item, rest) ← readRepeats? fuel atom rest
      let (items, rest) ← readRow? fuel rest
      some (.seq item items, rest)

def readAtom? : Nat → List Char → Option (Pattern CharSet × List Char)
  | 0, _ => none
  | _, [] => none
  | fuel + 1, c :: rest =>
    if c = '(' then do
      let inside ← match rest with
        | '?' :: ':' :: rest => some rest
        | '?' :: _ => none
        | rest => some rest
      let (group, rest) ← readAlternatives? fuel inside
      match rest with
      | ')' :: rest => some (group, rest)
      | _ => none
    else if c = '[' then (readClass? fuel rest).map fun (set, rest) => (.one set, rest)
    else if c = '\\' then
      match rest with
      | c :: rest => (escape? c).map fun set => (.one set, rest)
      | [] => none
    else if c = '.' then some (.one .dot, rest)
    else if c = '^' then some (.textStart, rest)
    else if c = '$' then some (.textEnd, rest)
    else if c = '*' ∨ c = '+' ∨ c = '?' ∨ c = '\x7b' then none
    else some (.one (.single c), rest)

end

/-- The pattern that a whole text spells. Two calls at most stand between characters read, so thrice
the length bounds the nesting of calls. -/
def read? (source : String) : Option (Pattern CharSet) :=
  let cs := source.toList
  match readAlternatives? (3 * cs.length + 3) cs with
  | some (p, []) => some p
  | _ => none

def compile (source : String) : Except (Option String) (String → Bool) :=
  match read? source with
  | some p => .ok p.occursIn
  | none => .error none

end RuleLogic.Pattern

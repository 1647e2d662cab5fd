/-!
Regular expressions over paths, in a small syntax: one compiler of patterns, to run configurations
with. A pattern maps the places where a match can begin to the places where it can end. A set of
places is a number: bit `i` stands for the place before character `i`, and the last bit for the end
of the text. So all ways to match go on at once, and nothing is tried twice.
-/
namespace RuleLogic

structure CharSet where
  negated : Bool
  ranges : List (Char × Char)
deriving DecidableEq, Repr

namespace CharSet

def contains (set : CharSet) (c : Char) : Bool :=
  (set.ranges.any fun (low, high) => low ≤ c && c ≤ high) != set.negated

def single (c : Char) : CharSet := ⟨false, [(c, c)]⟩

def digit : CharSet := ⟨false, [('0', '9')]⟩

def dot : CharSet := ⟨true, [('\n', '\n')]⟩

end CharSet

/-- What stands for single characters is left open: sets of characters as read, sets of places when
matching a text. -/
inductive Pattern (α : Type) where
  | empty
  | textStart
  | textEnd
  | one (item : α)
  | seq (first second : Pattern α)
  | either (left right : Pattern α)
  | repeated (body : Pattern α) (least : Nat) (most : Option Nat)
deriving DecidableEq, Repr

def CharSet.places (set : CharSet) : List Char → Nat
  | [] => 0
  | c :: cs => (set.places cs <<< 1) ||| (set.contains c).toNat

namespace Pattern

def map {α β : Type} (f : α → β) : Pattern α → Pattern β
  | empty => empty
  | textStart => textStart
  | textEnd => textEnd
  | one item => one (f item)
  | seq first second => seq (first.map f) (second.map f)
  | either left right => either (left.map f) (right.map f)
  | repeated body least most => repeated (body.map f) least most

def exactly (step : Nat → Nat) : Nat → Nat → Nat
  | 0, places => places
  | n + 1, places => exactly step n (step places)

/-- The places reached by at most `n` steps; it is done early when a step adds none. -/
def upTo (step : Nat → Nat) : Nat → Nat → Nat
  | 0, places => places
  | n + 1, places =>
    let more := places ||| step places
    if more = places then places else upTo step n more

/-- Where the matches end that begin at some places of a text of `length` characters. Without a
bound there are no more steps to repeat than places to add. -/
def ends (length : Nat) : Pattern Nat → Nat → Nat
  | empty, places => places
  | textStart, places => places &&& 1
  | textEnd, places => places &&& (1 <<< length)
  | one item, places => (places &&& item) <<< 1
  | seq first second, places => second.ends length (first.ends length places)
  | either left right, places => left.ends length places ||| right.ends length places
  | repeated body least most, places =>
    let more := match most with
      | some n => n - least
      | none => length + 1
    upTo (body.ends length) more (exactly (body.ends length) least places)

def occursIn (p : Pattern CharSet) (text : String) : Bool :=
  let cs := text.toList
  let everywhere := 1 <<< (cs.length + 1) - 1
  (p.map (·.places cs)).ends cs.length everywhere != 0

end Pattern

end RuleLogic

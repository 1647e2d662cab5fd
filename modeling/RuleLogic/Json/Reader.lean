import RuleLogic.Json
import RuleLogic.Decimal
import RuleLogic.Entries

/-!
Reading a document from its text. A whole number that fits 64 signed bits is an integer, one with a
point or an exponent is a double, and a key that comes twice keeps its first place and last value.
-/
namespace RuleLogic

namespace Number

/-- A negative zero is no integer. -/
def ofWhole? (negative : Bool) (digits : List Char) : Option Number :=
  let n := Decimal.natOfDigits digits
  if !negative then ofNat? n
  else if n = 0 then ofDouble? (.finite true .zero)
  else
    match int64? (-n) with
    | some i => some (.integer i)
    | none => ofDouble? (.ofInt (-n))

/-- A number as documents write it: no plus sign, no leading zero, digits on both sides of a point,
and a finite value. -/
def read? (token : List Char) : Option Number :=
  let (negative, body) := match token with
    | '-' :: body => (true, body)
    | body => (false, body)
  let whole := body.takeWhile Char.isDigit
  let rest := body.dropWhile Char.isDigit
  let fraction := (Decimal.splitFraction rest).1
  if whole.isEmpty || (whole.head? == some '0' && whole != ['0']) then none
  else if rest.isEmpty then ofWhole? negative whole
  else if rest.head? == some '.' && fraction.isEmpty then none
  else (Decimal.read? token).bind fun d => ofDouble? d.toDouble

end Number

namespace Json

def isSpace (c : Char) : Bool := c == ' ' || c == '\t' || c == '\n' || c == '\r'

def skipSpaces (cs : List Char) : List Char := cs.dropWhile isSpace

def hexValue? (c : Char) : Option Nat :=
  let n := c.toNat
  if c.isDigit then some (n - '0'.toNat)
  else if 'a' ≤ c ∧ c ≤ 'f' then some (n - 'a'.toNat + 10)
  else if 'A' ≤ c ∧ c ≤ 'F' then some (n - 'A'.toNat + 10)
  else none

def readHex? : List Char → Option (Nat × List Char)
  | a :: b :: c :: d :: rest => do
    let a ← hexValue? a
    let b ← hexValue? b
    let c ← hexValue? c
    let d ← hexValue? d
    some (((a * 16 + b) * 16 + c) * 16 + d, rest)
  | _ => none

def readUnit? (cs : List Char) : Option (Char × List Char) := do
  let (unit, rest) ← readHex? cs
  if 0xd800 ≤ unit ∧ unit < 0xdc00 then
    match rest with
    | '\\' :: 'u' :: rest =>
      let (low, rest) ← readHex? rest
      if 0xdc00 ≤ low ∧ low < 0xe000 then
        some (Char.ofNat (0x10000 + (unit - 0xd800) * 0x400 + (low - 0xdc00)), rest)
      else none
    | _ => none
  else if 0xdc00 ≤ unit ∧ unit < 0xe000 then none
  else some (Char.ofNat unit, rest)

def readEscape? : List Char → Option (Char × List Char)
  | 'u' :: cs => readUnit? cs
  | 'b' :: cs => some ('\x08', cs)
  | 'f' :: cs => some ('\x0c', cs)
  | 'n' :: cs => some ('\n', cs)
  | 'r' :: cs => some ('\r', cs)
  | 't' :: cs => some ('\t', cs)
  | c :: cs => if c = '"' ∨ c = '\\' ∨ c = '/' then some (c, cs) else none
  | [] => none

def readString? : Nat → List Char → List Char → Option (String × List Char)
  | 0, _, _ => none
  | _, _, [] => none
  | fuel + 1, done, c :: cs =>
    if c = '"' then some (String.ofList done.reverse, cs)
    else if c = '\\' then
      match readEscape? cs with
      | some (c, cs) => readString? fuel (c :: done) cs
      | none => none
    else if c.toNat < 0x20 then none
    else readString? fuel (c :: done) cs

def isNumberChar (c : Char) : Bool :=
  c.isDigit || c == '-' || c == '+' || c == '.' || c == 'e' || c == 'E'

mutual

def readValue? : Nat → List Char → Option (Json × List Char)
  | 0, _ => none
  | _, [] => none
  | fuel + 1, c :: cs =>
    if c = '"' then (readString? fuel [] cs).map fun (s, rest) => (.string s, rest)
    else if c = '[' then
      match skipSpaces cs with
      | ']' :: rest => some (.array [], rest)
      | cs => readItems? fuel [] cs
    else if c = '\x7b' then
      match skipSpaces cs with
      | '\x7d' :: rest => some (.object [], rest)
      | cs => readMembers? fuel [] cs
    else if "null".toList.isPrefixOf (c :: cs) then some (.null, cs.drop 3)
    else if "true".toList.isPrefixOf (c :: cs) then some (.boolean true, cs.drop 3)
    else if "false".toList.isPrefixOf (c :: cs) then some (.boolean false, cs.drop 4)
    else
      (Number.read? ((c :: cs).takeWhile isNumberChar)).map fun n =>
        (.number n, (c :: cs).dropWhile isNumberChar)

def readItems? : Nat → List Json → List Char → Option (Json × List Char)
  | 0, _, _ => none
  | fuel + 1, done, cs =>
    match readValue? fuel (skipSpaces cs) with
    | none => none
    | some (item, cs) =>
      match skipSpaces cs with
      | ',' :: cs => readItems? fuel (item :: done) cs
      | ']' :: cs => some (.array (item :: done).reverse, cs)
      | _ => none

def readMembers? : Nat → List (String × Json) → List Char → Option (Json × List Char)
  | 0, _, _ => none
  | fuel + 1, done, cs =>
    match skipSpaces cs with
    | '"' :: cs =>
      match readString? fuel [] cs with
      | none => none
      | some (key, cs) =>
        match skipSpaces cs with
        | ':' :: cs =>
          match readValue? fuel (skipSpaces cs) with
          | none => none
          | some (value, cs) =>
            let done := (key, value) :: done
            match skipSpaces cs with
            | ',' :: cs => readMembers? fuel done cs
            | '\x7d' :: cs => some (.object (Entries.ofPairs done.reverse), cs)
            | _ => none
        | _ => none
    | _ => none

end

/-- The document that a whole text holds. Every step reads a character, so twice the length bounds
their nesting. -/
def read? (text : String) : Option Json :=
  let cs := text.toList
  match readValue? (2 * cs.length + 2) (skipSpaces cs) with
  | some (value, rest) => if (skipSpaces rest).isEmpty then some value else none
  | none => none

end Json

end RuleLogic

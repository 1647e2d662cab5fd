import RuleLogic.Expr

/-!
Reading a document as an expression. A list of two or more items is an expression when an operator
token heads it and the operands are as many as the operator takes; any other list is a collection,
and an escaped head always makes one. The depth limit counts the levels of lists.
-/
namespace RuleLogic

/-- What a list is taken for: a collection, because it has one item, or its head is no string, has
an escape (here without it) or is no operator token; or else an expression. -/
inductive Head where
  | only
  | headless
  | escaped (head : String)
  | unknown
  | operator (op : Operator)
deriving DecidableEq, Repr

namespace Options

def headOf (o : Options) (head : Json) (rest : List Json) : Head :=
  match rest, head with
  | [], _ => .only
  | _, .string s =>
    match o.unescape? s with
    | some s => .escaped s
    | none =>
      match o.operators.lookup s with
      | some op => .operator op
      | none => .unknown
  | _, _ => .headless

def readString (o : Options) (s : String) : Except ReadError Expr :=
  match o.affix.strip? s with
  | none => .ok (.literal (.string s))
  | some address =>
    match Reference.ofAddress o address with
    | .ok r => .ok (.reference r)
    | .error fault => .error (.of fault)

def readHead (o : Options) (depth : Nat) (head : String) : Except ReadError Expr :=
  if o.maxDepth ≤ depth then .error (.of (.tooDeep o.maxDepth (.string head)))
  else o.readString head

/-- A list of read items, with the same note on the error of any. -/
def gather (o : Options) (surrounding : Option Surrounding)
    (first : Except ReadError Expr) (rest : Except ReadError (List Expr)) : Except ReadError Expr :=
  let items := do return (← first) :: (← rest)
  match items, surrounding with
  | .ok items, _ => .ok (.collection items o)
  | .error e, some s => .error (e.inside s)
  | .error e, none => .error e

mutual

def readAt (o : Options) (depth : Nat) (data : Json) : Except ReadError Expr :=
  if o.maxDepth ≤ depth then .error (.of (.tooDeep o.maxDepth data))
  else match data with
    | .null => .error (.of .missing)
    | .boolean b => .ok (.literal (.boolean b))
    | .number n => .ok (.literal (.ofNumber n))
    | .string s => o.readString s
    | .object members => .error (.of (.notOperand (.object members)))
    | .array [] => .error (.of .emptyList)
    | .array (head :: rest) =>
      match o.headOf head rest with
      | .only => o.gather none (readAt o (depth + 1) head) (readEach o (depth + 1) rest)
      | .headless =>
        o.gather (some .headless) (readAt o (depth + 1) head) (readEach o (depth + 1) rest)
      | .unknown =>
        o.gather (some .unknownHead) (readAt o (depth + 1) head) (readEach o (depth + 1) rest)
      | .escaped s => o.gather none (o.readHead (depth + 1) s) (readEach o (depth + 1) rest)
      | .operator op =>
        match readEach o (depth + 1) rest with
        | .error e => .error (e.inside .expression)
        | .ok operands =>
          if op.accepts operands.length then .ok (.apply o op operands)
          else o.gather none (readAt o (depth + 1) head) (.ok operands)

def readEach (o : Options) (depth : Nat) : List Json → Except ReadError (List Expr)
  | [] => .ok []
  | data :: rest => do return (← readAt o depth data) :: (← readEach o depth rest)

end

def read (o : Options) (data : Json) : Except ReadError Expr := o.readAt 0 data

end Options

end RuleLogic

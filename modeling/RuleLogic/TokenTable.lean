import RuleLogic.Operator
import RuleLogic.Entries

/-!
Which string heads the lists of which operator. Every operator has a token; where two have the same
one, reading goes by the owner, the operator that was given it last. An operator that takes a new
token gives up the old one if it still owns it.
-/
namespace RuleLogic

structure TokenTable where
  tokens : Operator → String
  owners : List (String × Operator)

namespace TokenTable

def default : TokenTable where
  tokens := Operator.defaultToken
  owners := Operator.all.map fun op => (op.defaultToken, op)

instance : Inhabited TokenTable := ⟨default⟩

def token (t : TokenTable) (op : Operator) : String := t.tokens op

/-- The operator that a string at the head of a list stands for. -/
def lookup (t : TokenTable) (token : String) : Option Operator := t.owners.lookup token

def isReserved (t : TokenTable) (token : String) : Bool := (t.lookup token).isSome

def rename (t : TokenTable) (op : Operator) (token : String) : TokenTable where
  tokens := fun o => if o = op then token else t.tokens o
  owners :=
    let kept :=
      if t.lookup (t.token op) = some op then Entries.remove (t.token op) t.owners else t.owners
    Entries.put token op kept

def isDefault (t : TokenTable) : Bool :=
  t.owners.length == Operator.all.length && Operator.all.all fun op =>
    t.token op == op.defaultToken && t.lookup op.defaultToken == some op

@[simp] theorem token_rename (t : TokenTable) (op o : Operator) (token : String) :
    (t.rename op token).token o = if o = op then token else t.token o := rfl

theorem lookup_rename (t : TokenTable) (op : Operator) (token s : String) :
    (t.rename op token).lookup s =
      if s = token then some op
      else if s = t.token op ∧ t.lookup s = some op then none
      else t.lookup s := by
  unfold rename lookup
  split <;> grind [Entries.lookup_put, Entries.lookup_remove, lookup]

end TokenTable

end RuleLogic

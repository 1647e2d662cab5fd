import RuleLogic.Expr

/-!
Writing an expression as a document. Every part goes by its own options. A collection whose first
item would be read as an operator gets its head escaped, unless it has that item alone.
-/
namespace RuleLogic.Expr

/-- Escapes the head of two or more items when it is an operator token. -/
def escapeHead (o : Options) : List Json → List Json
  | .string head :: second :: rest =>
    .string (if o.operators.isReserved head then o.escaped head else head) :: second :: rest
  | items => items

mutual

def toJson : Expr → Json
  | literal l => l.toJson
  | reference r => .string (r.options.affix.render r.written)
  | collection items o => .array (escapeHead o (toJsons items))
  | comparison op operands o =>
    .array (.string (o.operators.token (.comparison op)) :: toJsons operands)
  | logical op operands o =>
    .array (.string (o.operators.token (.logical op)) :: toJsons operands)

def toJsons : List Expr → List Json
  | [] => []
  | e :: rest => e.toJson :: toJsons rest

end

end RuleLogic.Expr

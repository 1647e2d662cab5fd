import RuleLogic.Config
import RuleLogic.Expr.Reader
import RuleLogic.Pattern.Reader
import RuleLogic.Simplification

/-!
Engines: documents read, evaluated and simplified under one set of options. The depth limit of the
options is the one for evaluation too.
-/
namespace RuleLogic

inductive Failure where
  | reading (e : ReadError)
  | evaluation (f : EvalFault)
  | configuration (f : ConfigFault)

def Failure.diagnostic : Failure → Diagnostic
  | reading e => e.diagnostic
  | evaluation f => f.diagnostic
  | configuration f => f.diagnostic

structure Engine where
  options : Options

namespace Engine

def default : Engine := ⟨.default⟩

instance : Inhabited Engine := ⟨default⟩

def ofConfigBy (compile : PatternCompiler) (c : Config) : Except Failure Engine :=
  match c.options compile with
  | .ok o => .ok ⟨o⟩
  | .error f => .error (.configuration f)

def ofConfig (c : Config) : Except Failure Engine := ofConfigBy Pattern.compile c

def read (engine : Engine) (data : Json) : Except Failure Expr :=
  match engine.options.read data with
  | .ok e => .ok e
  | .error e => .error (.reading e)

/-- The context of a document; null gives none, in which nothing is found. -/
def contextOf (data : Json) : Context := (Context.ofJson? data).getD .empty

def evaluate (engine : Engine) (data context : Json) : Except Failure Value := do
  let e ← engine.read data
  match e.evaluate engine.options.maxDepth (contextOf context) with
  | .ok v => .ok v
  | .error f => .error (.evaluation f)

def simplify (engine : Engine) (data context : Json) : Except Failure Simplified := do
  let e ← engine.read data
  return e.simplify engine.options.maxDepth (contextOf context)

def statement (engine : Engine) (data : Json) : Except Failure String := do
  return (← engine.read data).statement

end Engine

end RuleLogic

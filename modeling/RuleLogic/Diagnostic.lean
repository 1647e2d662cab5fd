import RuleLogic.ReadError
import RuleLogic.EvalFault

/-!
Errors as they are shown: a numbered code, a message, and for some codes a help text. Codes from 1
are for reading, from 100 for evaluation, from 200 for configuration; the last carry no context.
-/
namespace RuleLogic

structure Code where
  number : Nat
deriving DecidableEq, Repr

namespace Code

def text (c : Code) : String :=
  let digits := Nat.toDigits 10 c.number
  "IL" ++ String.ofList (List.replicate (4 - digits.length) '0' ++ digits)

def isReading (c : Code) : Bool := 1 ≤ c.number && c.number < 100

def isEvaluation (c : Code) : Bool := 100 ≤ c.number && c.number < 200

def isConfiguration (c : Code) : Bool := 200 ≤ c.number && c.number < 300

def description (c : Code) : String :=
  match c.number with
  | 1 => "Unexpected input"
  | 2 => "Undefined operand"
  | 3 => "Unknown operator"
  | 4 => "Invalid operand"
  | 5 => "Invalid operand count"
  | 6 => "Unsupported type casting"
  | 7 => "Nesting limit exceeded"
  | 100 => "Non-boolean logical operand"
  | 101 => "Invalid conversion"
  | 102 => "Interpolation limit exceeded"
  | 103 => "Evaluation depth limit exceeded"
  | 200 => "Unknown operator name"
  | 201 => "Invalid ignored path pattern"
  | _ => "Unknown error"

def help? (c : Code) : Option String :=
  match c.number with
  | 2 => some "Operands and collections must not be empty"
  | 4 => some "Operands must be scalars, references or arrays"
  | 6 => some "Supported casts are Number, Integer, Float, String and Boolean"
  | _ => none

end Code

inductive Stage where
  | reading (expression : String)
  | evaluation
  | configuration
deriving DecidableEq, Repr

structure Diagnostic where
  stage : Stage
  code : Code
  message : String
  context : Option String
deriving DecidableEq, Repr

namespace Diagnostic

/-- Attaches a context, in place of any other. Errors of configuration carry none. -/
def withContext (d : Diagnostic) (context : String) : Diagnostic :=
  match d.stage with
  | .configuration => d
  | _ => { d with context := some context }

def text (d : Diagnostic) : String := d.code.text ++ ": " ++ d.message

def report (d : Diagnostic) : String :=
  let context := (d.context.map fun c => "\n  context: " ++ c).getD ""
  let help := (d.code.help?.map fun h => "\n  help: " ++ h).getD ""
  d.text ++ " (" ++ d.code.description ++ ")" ++ context ++ help

end Diagnostic

namespace Fault

def code : Fault → Code
  | tooDeep .. => ⟨7⟩
  | missing => ⟨1⟩
  | emptyList => ⟨2⟩
  | notOperand _ => ⟨4⟩
  | emptyCollection => ⟨2⟩
  | operandCount .. => ⟨5⟩
  | unsupportedType .. => ⟨6⟩

def diagnostic (f : Fault) : Diagnostic := ⟨.reading f.expression, f.code, f.message, none⟩

end Fault

def unknownOperatorCode : Code := ⟨3⟩

namespace Surrounding

/-- The context that a list gives to an error inside it: why the list is no expression, or the error
itself if it is one. -/
def context (fault : Fault) : Surrounding → String
  | headless => unknownOperatorCode.text ++ ": unexpected logical expression"
  | unknownHead => unknownOperatorCode.text ++ ": unexpected logical operator"
  | expression => fault.diagnostic.text

end Surrounding

def ReadError.diagnostic (e : ReadError) : Diagnostic :=
  match e.surrounding with
  | none => e.fault.diagnostic
  | some s => e.fault.diagnostic.withContext (s.context e.fault)

namespace EvalFault

def code : EvalFault → Code
  | notBoolean _ => ⟨100⟩
  | conversion _ => ⟨101⟩
  | unsettledPath .. => ⟨102⟩
  | tooDeep _ => ⟨103⟩

/-- A connective that met no truth value is named as the context. -/
def diagnostic (f : EvalFault) : Diagnostic :=
  let d : Diagnostic := ⟨.evaluation, f.code, f.message, none⟩
  match f with
  | notBoolean op => d.withContext op.symbol
  | _ => d

end EvalFault

end RuleLogic

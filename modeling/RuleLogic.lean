import RuleLogic.Engine
import RuleLogic.Json.Reader
import RuleLogic.Proofs.Connective
import RuleLogic.Proofs.Operand
import RuleLogic.Proofs.Structure
import RuleLogic.Proofs.Extension
import RuleLogic.Proofs.Refinement
import RuleLogic.Proofs.Soundness
import RuleLogic.Proofs.Levels
import RuleLogic.Proofs.Staging
import RuleLogic.Proofs.Address
import RuleLogic.Proofs.Document
import RuleLogic.Proofs.Reading
import RuleLogic.Proofs.RoundTrip
import RuleLogic.Proofs.Finite
import RuleLogic.Proofs.Rereading
import RuleLogic.Proofs.Remainder
import RuleLogic.Proofs.Agreement
import RuleLogic.Proofs.Counter
import RuleLogic.Proofs.Faults
import RuleLogic.Proofs.Depth
import RuleLogic.Proofs.Grammar
import RuleLogic.Proofs.Export
import RuleLogic.Proofs.Addressing
import RuleLogic.Proofs.Ignored
import RuleLogic.Proofs.Tokens
import RuleLogic.Proofs.Ownership
import RuleLogic.Proofs.Configuration
import RuleLogic.Proofs.Stored
import RuleLogic.Proofs.Shrinking
import RuleLogic.Proofs.Leaves
import RuleLogic.Proofs.ShortCircuit
import RuleLogic.Proofs.Comparison
import RuleLogic.Proofs.Casting
import RuleLogic.Proofs.FiniteResults
import RuleLogic.Proofs.Refusal
import RuleLogic.Proofs.Interpolation
import RuleLogic.Proofs.Nearest
import RuleLogic.Proofs.Numeral
import RuleLogic.Proofs.Suffix
import RuleLogic.Proofs.Span
import RuleLogic.Proofs.Affix

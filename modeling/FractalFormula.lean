import FractalFormula.Main
import FractalFormula.Journal
import FractalFormula.Tree.Edit
import FractalFormula.Tree.Printer
import FractalFormula.Scalar.Real
import FractalFormula.Proofs.Parser.Unambiguous
import FractalFormula.Proofs.Parser.Readings
import FractalFormula.Proofs.Parser.Soundness
import FractalFormula.Proofs.Parser.Completeness
import FractalFormula.Proofs.Decimal.Bits
import FractalFormula.Proofs.Decimal.Nearest
import FractalFormula.Proofs.Decimal.Layout
import FractalFormula.Proofs.Parser.RoundTrip
import FractalFormula.Proofs.Formula.History
import FractalFormula.Proofs.Shader.Reading
import FractalFormula.Proofs.Shader.Lowering
import FractalFormula.Proofs.Tree.Acceptance
import FractalFormula.Proofs.Simplify.Fold
import FractalFormula.Proofs.Tree.Closure
import FractalFormula.Proofs.Evaluation.Environment
import FractalFormula.Proofs.Scalar.Finite
import FractalFormula.Proofs.Tree.Passes
import FractalFormula.Proofs.Scalar.Exact
import FractalFormula.Proofs.Simplify.Exact
import FractalFormula.Proofs.Derivative.Exact
import FractalFormula.Proofs.Parser.Names
import FractalFormula.Proofs.Evaluation.Failure
import FractalFormula.Proofs.Orbit.Escape
import FractalFormula.Proofs.Orbit.Grid
import FractalFormula.Proofs.Derivative.Rational
import FractalFormula.Proofs.Derivative.Expansion
import FractalFormula.Proofs.Simplify.Rules
import FractalFormula.Proofs.Simplify.Weight
import FractalFormula.Proofs.Scalar.Comparable
import FractalFormula.Proofs.Simplify.NormalForm
import FractalFormula.Proofs.Simplify.Constant
import FractalFormula.Proofs.Simplify.Singular
import FractalFormula.Proofs.Decimal.Sign
import FractalFormula.Proofs.Scalar.Partwise
import FractalFormula.Proofs.Parser.StandardForm
import FractalFormula.Proofs.Parser.Position
import FractalFormula.Proofs.Parser.Failure
import FractalFormula.Proofs.Parser.Report
import FractalFormula.Proofs.Parser.Bracket
import FractalFormula.Proofs.Parser.Blanks
import FractalFormula.Proofs.Tree.Map
import FractalFormula.Proofs.Parser.Imaginary
import FractalFormula.Proofs.Parser.Real
import FractalFormula.Proofs.Decimal.Order
import FractalFormula.Proofs.Orbit.Stability
import FractalFormula.Proofs.Evaluation.Sources
import FractalFormula.Proofs.Evaluation.Resolution
import FractalFormula.Proofs.Text.Replace
import FractalFormula.Proofs.Shader.Template
import FractalFormula.Proofs.Config.Keys
import FractalFormula.Proofs.Config.Loading
import FractalFormula.Proofs.Derivative.Deviation
import FractalFormula.Proofs.Decimal.Overflow
import FractalFormula.Proofs.Parser.Cursor
import FractalFormula.Proofs.Parser.Longest
import FractalFormula.Proofs.Parser.Discipline
import FractalFormula.Proofs.Symbol.Lookup

import Fluxion.Batch
import Fluxion.Expr.Subtree
import Fluxion.Formula
import Fluxion.Main
import Fluxion.Proofs.Parser.Grammar
import Fluxion.Proofs.Outcome
import Fluxion.Proofs.Parser.Settling
import Fluxion.Proofs.Parser.Reading
import Fluxion.Proofs.Token.Flow
import Fluxion.Proofs.Parser.Exactness
import Fluxion.Proofs.Scalar.Lawful
import Fluxion.Proofs.Derivative.Rules
import Fluxion.Proofs.Derivative.Agreement
import Fluxion.Proofs.Number.DecimalValue
import Fluxion.Proofs.Number.Positional
import Fluxion.Proofs.Number.Bits
import Fluxion.Proofs.Number.WordConversion
import Fluxion.Proofs.Number.ConstantText
import Fluxion.Proofs.Number.Nearest
import Fluxion.Proofs.Number.NearestDouble
import Fluxion.Proofs.Expr.Rendering
import Fluxion.Proofs.Expr.Reparse
import Fluxion.Proofs.Expr.RoundTrip
import Fluxion.Proofs.Derivative.Calculus
import Fluxion.Proofs.Expr.Evaluation
import Fluxion.Proofs.Program.Simulation
import Fluxion.Proofs.Parser.Scan
import Fluxion.Proofs.Token.Placement
import Fluxion.Proofs.Token.Tiling
import Fluxion.Proofs.Token.Misfit
import Fluxion.Proofs.Token.Lossless
import Fluxion.Proofs.Parser.Alignment
import Fluxion.Proofs.Token.Cuts
import Fluxion.Proofs.Parser.Layout
import Fluxion.Proofs.Parser.DepthLimit
import Fluxion.Proofs.Derivative.Refusal
import Fluxion.Proofs.Derivative.SecondOrder
import Fluxion.Proofs.Formula.ThroughText
import Fluxion.Proofs.Derivative.Bitwise
import Fluxion.Proofs.Derivative.Succession
import Fluxion.Proofs.CommandLine.Report
import Fluxion.Proofs.Text.ByteOrder
import Fluxion.Proofs.Expr.Names
import Fluxion.Proofs.Derivative.Directions
import Fluxion.Proofs.Token.Requests
import Fluxion.Proofs.Derivative.Growth
import Fluxion.Proofs.Scalar.Field
import Fluxion.Proofs.Scalar.FirstOrder
import Fluxion.Proofs.Program.Replay
import Fluxion.Proofs.Parser.Stacks
import Fluxion.Proofs.Program.StackHeight
import Fluxion.Proofs.Number.DoubleSyntax
import Fluxion.Proofs.Number.Numeral
import Fluxion.Proofs.Text.Trimming
import Fluxion.Proofs.Bindings
import Fluxion.Proofs.CommandLine.Reading
import Fluxion.Proofs.CommandLine.Binding
import Fluxion.Proofs.CommandLine.FinalBindings

import Chance.Decimal
import Chance.Decimal.Layout
import Chance.Json
import Chance.Json.Writer
import Chance.Json.Reader
import Chance.Mass
import Chance.Outcome
import Chance.Pmf
import Chance.Pmf.Builder
import Chance.Pmf.Equality
import Chance.Pmf.Selection
import Chance.Pmf.Combination
import Chance.Pmf.Text
import Chance.Random.Source
import Chance.Random.ChaCha
import Chance.Special.ErrorFunction
import Chance.Special.IncompleteBeta
import Chance.Law
import Chance.Law.Cumulative
import Chance.Affine
import Chance.Operation
import Chance.Value
import Chance.Value.Fault
import Chance.Value.Primitives
import Chance.Value.Text
import Chance.Program
import Chance.Program.Reading
import Chance.Program.Evaluation
import Chance.Operation.Reading
import Chance.Law.Reading
import Chance.Settings
import Chance.Loading
import Chance.CommandLine.Arguments
import Chance.CommandLine
import Chance.CommandLine.Directory
import Chance.Main
import Chance.Proofs.Evaluation
import Chance.Proofs.Draws
import Chance.Proofs.Acceptance
import Chance.Proofs.Kinds
import Chance.Proofs.Expectation
import Chance.Proofs.Worlds
import Chance.Proofs.Plain
import Chance.Proofs.Lifting
import Chance.Proofs.Inference
import Chance.Proofs.StackCode
import Chance.Proofs.Sessions
import Chance.Proofs.Partiality
import Chance.Proofs.Doubles
import Chance.Proofs.Normalisation
import Chance.Proofs.Rounding
import Chance.Proofs.Arithmetic
import Chance.Proofs.DoubleMasses
import Chance.Proofs.Drift
import Chance.Proofs.CoinSessions
import Chance.Proofs.Grammar
import Chance.Proofs.Tokens
import Chance.Proofs.Words
import Chance.Proofs.Decimals
import Chance.Proofs.Parsing
import Chance.Proofs.Denotation
import Chance.Proofs.Writing
import Chance.Proofs.NormalForm
import Chance.Proofs.RoundTrip
import Chance.Proofs.Calls
import Chance.Proofs.Statuses
import Chance.Proofs.Building
import Chance.Proofs.Pushforward
import Chance.Proofs.FloatOutcomes
import Chance.Proofs.Lone
import Chance.Proofs.Interpreter
import Chance.Proofs.Selection
import Chance.Proofs.OperandOrder
import Chance.Proofs.Extents
import Chance.Proofs.IntegerLiterals
import Chance.Proofs.NullMasses
import Chance.Proofs.NullOutcomes
import Chance.Proofs.Thresholds
import Chance.Proofs.Unobservable
import Chance.Proofs.Comparisons
import Chance.Proofs.RunningTotals
import Chance.Proofs.ZeroSums
import Chance.Proofs.Chains
import Chance.Proofs.PlainTexts
import Chance.Proofs.TotalOrder
import Chance.Proofs.Summaries
import Chance.Proofs.Histories
import Chance.Proofs.Sameness
import Chance.Proofs.Negation
import Chance.Proofs.Payloads

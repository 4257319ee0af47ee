import Reckoner.Assignment
import Reckoner.CommandLine.Report
import Reckoner.CommandLine.Run
import Reckoner.Evaluation.Application
import Reckoner.Evaluation.Basic
import Reckoner.Evaluation.Outline
import Reckoner.Evaluation.Reduction
import Reckoner.Evaluation.Slices
import Reckoner.Fault
import Reckoner.Function.Builtin
import Reckoner.Function.Entry
import Reckoner.Main
import Reckoner.Number.Binary64
import Reckoner.Number.Bits
import Reckoner.Number.Decimal
import Reckoner.Number.Factorial
import Reckoner.Number.Hyperbolic
import Reckoner.Number.Numeral
import Reckoner.Number.Positional
import Reckoner.Number.RoundTrip
import Reckoner.Number.Shortest
import Reckoner.Sampling
import Reckoner.Scope
import Reckoner.Session
import Reckoner.Table
import Reckoner.Text.Blank
import Reckoner.Text.Split
import Reckoner.Token.Basic
import Reckoner.Token.Lexer
import Reckoner.Value.Arithmetic
import Reckoner.Value.Basic
import Reckoner.Proofs.Grammar.Phrase
import Reckoner.Proofs.Grammar.Abbreviation
import Reckoner.Proofs.Grammar.Reduction
import Reckoner.Proofs.Application
import Reckoner.Proofs.Grammar.Brackets
import Reckoner.Proofs.Grammar.Calls
import Reckoner.Proofs.Grammar.Descent
import Reckoner.Proofs.Comparison.Basic
import Reckoner.Proofs.Comparison.Brackets
import Reckoner.Proofs.Comparison.Reduction
import Reckoner.Proofs.Comparison.Scope
import Reckoner.Proofs.Comparison.Equality
import Reckoner.Proofs.Substitution
import Reckoner.Proofs.Pointwise
import Reckoner.Proofs.CallDepth
import Reckoner.Proofs.Masking
import Reckoner.Proofs.Text
import Reckoner.Proofs.Definitions
import Reckoner.Proofs.Transaction
import Reckoner.Proofs.Reachability
import Reckoner.Proofs.Names
import Reckoner.Proofs.StoredNames
import Reckoner.Proofs.Lexemes
import Reckoner.Proofs.Nesting.Basic
import Reckoner.Proofs.Nesting.Condensation
import Reckoner.Proofs.Nesting.Faults
import Reckoner.Proofs.Nesting.Evaluation
import Reckoner.Proofs.Nesting.Balance
import Reckoner.Proofs.Nesting.Replacement
import Reckoner.Proofs.Filled
import Reckoner.Proofs.WrittenValues
import Reckoner.Proofs.Recorded
import Reckoner.Proofs.Dump
import Reckoner.Proofs.Refusals
import Reckoner.Proofs.Activations
import Reckoner.Proofs.Turns
import Reckoner.Proofs.Spacing
import Reckoner.Proofs.Sources
import Reckoner.Proofs.Lengths
import Reckoner.Proofs.Signatures
import Reckoner.Proofs.Newlines
import Reckoner.Proofs.Shown
import Reckoner.Proofs.Composition
import Reckoner.Proofs.WrittenTokens
import Reckoner.Proofs.Shapes
import Reckoner.Proofs.Places.Basic
import Reckoner.Proofs.Places.Slices
import Reckoner.Proofs.Places.Evaluation
import Reckoner.Proofs.Defences

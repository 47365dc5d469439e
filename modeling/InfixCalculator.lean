import InfixCalculator.Main
import InfixCalculator.Proofs.Grammar
import InfixCalculator.Proofs.Parentheses
import InfixCalculator.Proofs.Infix
import InfixCalculator.Proofs.Conversion.Faults
import InfixCalculator.Proofs.Postorder
import InfixCalculator.Proofs.ReadBack.Tokens
import InfixCalculator.Proofs.Calculation.Operators
import InfixCalculator.Proofs.Calculation.Operands
import InfixCalculator.Proofs.Calculation.Tables
import InfixCalculator.Proofs.Lexing.LongestMatch
import InfixCalculator.Proofs.Reading.Breaches
import InfixCalculator.Proofs.CommandLine.Arguments
import InfixCalculator.Proofs.CommandLine.Transcript
import InfixCalculator.Proofs.Reading.Minuses
import InfixCalculator.Proofs.Conversion.Order
import InfixCalculator.Proofs.Calculation.Positions
import InfixCalculator.Proofs.Calculation.Roots
import InfixCalculator.Proofs.Calculation.Depth
import InfixCalculator.Proofs.Lexing.Tiling
import InfixCalculator.Proofs.OperatorTable
import InfixCalculator.Proofs.Calculation.Blanks
import InfixCalculator.Proofs.Binary64.Number
import InfixCalculator.Proofs.CommandLine.Settings
import InfixCalculator.Proofs.Conversion.Stack
import InfixCalculator.Proofs.Binary64.Closest
import InfixCalculator.Proofs.Binary64.Difference
import InfixCalculator.Proofs.Binary64.WholeNumbers
import InfixCalculator.Proofs.Factorial

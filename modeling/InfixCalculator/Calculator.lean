import InfixCalculator.Postfix.Conversion
import InfixCalculator.Postfix.Evaluation
import InfixCalculator.Token.Reading

namespace InfixCalculator

/-! Calculators: an operator table with a library of functions. -/

/-- Why an expression has no value; the reason is that of the first stage that failed. -/
inductive CalculationError where
  | emptyExpression
  | reading (reason : ReadingError)
  | conversion (reason : ConversionError)
  | evaluation (reason : EvaluationError)
deriving DecidableEq

namespace CalculationError

def message : CalculationError → String
  | .emptyExpression => "Expression cannot be empty."
  | .reading reason => reason.message
  | .conversion reason => reason.message
  | .evaluation reason => reason.message

/-- Whether a value left the real numbers. -/
def isDomain : CalculationError → Bool
  | .evaluation (.domain _) => true
  | _ => false

def isFactorial : CalculationError → Bool
  | .evaluation (.domain (.factorial _)) => true
  | _ => false

/-- The messages of the reasons behind an error, from the error of the stage to the innermost. -/
def causes : CalculationError → List String
  | .emptyExpression => []
  | .reading reason => [reason.message]
  | .conversion reason => [reason.message]
  | .evaluation (.domain (.factorial reason)) =>
      [(DomainError.factorial reason).message, reason.message]
  | .evaluation reason => [reason.message]

end CalculationError

structure Calculator where
  table : OperatorTable
  library : MathLibrary

namespace Calculator

def standard : Calculator := ⟨.standard, .native⟩

/-- The postfix form of an expression. Blanks around the expression do not count, not even for the
positions in errors. -/
def arrange (calculator : Calculator) (expression : String) :
    Except CalculationError (List Token) := do
  let text := Text.trim expression.toList
  if text.isEmpty then .error .emptyExpression
  else
    let tokens ← (Token.read calculator.table text).mapError .reading
    (Postfix.ofInfix calculator.table tokens).mapError .conversion

def value (calculator : Calculator) (tokens : List Token) : Except CalculationError Float :=
  (Postfix.evaluate calculator.library calculator.table tokens).mapError .evaluation

def evaluate (calculator : Calculator) (expression : String) : Except CalculationError Float := do
  let tokens ← calculator.arrange expression
  calculator.value tokens

end Calculator

/-- The value of an expression in the standard notation. -/
def evaluate (expression : String) : Except CalculationError Float :=
  Calculator.standard.evaluate expression

end InfixCalculator

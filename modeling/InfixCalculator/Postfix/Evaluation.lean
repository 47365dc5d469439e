import InfixCalculator.Factorial
import InfixCalculator.MathLibrary
import InfixCalculator.OperatorTable
import InfixCalculator.Token

namespace InfixCalculator

/-! The value of tokens in postfix order.

Operands go onto a stack, and an operator takes its operands from the top of it and puts its result
there. Whatever goes onto the stack is finite. -/

/-- A value that is no real number. -/
inductive DomainError where
  /-- The value of an operator, or of a number if there is no operator, is infinite or NaN. -/
  | notFinite (producer : Option Operator) (value : Float)
  | factorial (reason : FactorialError)
deriving DecidableEq

inductive EvaluationError where
  /-- The operator takes more operands than it found. -/
  | missingOperand (operator : Operator) (expected found : Nat)
  | valueCount (remaining : Nat)
  | parenthesis
  | unknownOperator (operator : Operator)
  | domain (reason : DomainError)
deriving DecidableEq

def DomainError.message : DomainError → String
  | .notFinite (some operator) value =>
      s!"Math domain error or division by zero: '{operator.symbol}' produced {Numeral.text value}."
  | .notFinite none value =>
      s!"Math domain error: value {Numeral.text value} is not finite."
  | .factorial reason => reason.message

def EvaluationError.message : EvaluationError → String
  | .missingOperand operator expected found =>
      s!"Operator '{operator.symbol}' requires {expected} operand(s), but found {found}."
  | .valueCount remaining =>
      s!"Invalid RPN expression (too many/few operands): {remaining} value(s) left."
  | .parenthesis => "Invalid RPN expression: unexpected parenthesis."
  | .unknownOperator operator => s!"Unknown token during evaluation: '{operator.symbol}'."
  | .domain reason => reason.message

namespace Postfix

/-- The value of an operator on its operands, and the stack below them. The right operand is on top
of the left one. -/
def apply (library : MathLibrary) (operator : Operator) (stack : List Float) :
    Except EvaluationError (Float × List Float) :=
  match operator, stack with
  | .function named, argument :: rest => .ok (library.function named argument, rest)
  | .binary sign, right :: left :: rest => .ok (library.binary sign left right, rest)
  | .factorial, argument :: rest =>
      match InfixCalculator.factorial argument with
      | .ok value => .ok (value, rest)
      | .error reason => .error (.domain (.factorial reason))
  | _, _ => .error (.missingOperand operator operator.arity stack.length)

def push (producer : Option Operator) (value : Float) (stack : List Float) :
    Except EvaluationError (List Float) :=
  if value.isFinite then .ok (value :: stack)
  else .error (.domain (.notFinite producer value))

def step (library : MathLibrary) (table : OperatorTable) (stack : List Float) :
    Token → Except EvaluationError (List Float)
  | .number value => push none value stack
  | .constant => push none circleConstant stack
  | .openParen | .closeParen => .error .parenthesis
  | .operator operation =>
      match table.entry? operation with
      | none => .error (.unknownOperator operation)
      | some _ =>
          match apply library operation stack with
          | .ok (value, rest) => push (some operation) value rest
          | .error reason => .error reason

def finish : List Float → Except EvaluationError Float
  | [value] => .ok value
  | stack => .error (.valueCount stack.length)

def evaluate (library : MathLibrary) (table : OperatorTable) (tokens : List Token) :
    Except EvaluationError Float := do
  let stack ← tokens.foldlM (step library table) []
  finish stack

end Postfix
end InfixCalculator

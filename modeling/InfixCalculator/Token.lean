import InfixCalculator.Numeral
import InfixCalculator.Operator

namespace InfixCalculator

/-! The words of an expression, in infix as in postfix order. -/

/-- The double nearest to the circle constant. -/
def circleConstant : Float := Float.ofBits 0x400921FB54442D18

inductive Token where
  | number (value : Float)
  /-- The letter `p`, which stands for the circle constant. -/
  | constant
  | operator (operation : Operator)
  | openParen
  | closeParen
deriving DecidableEq

namespace Token

/-- Whether an operand may end with this token, so that a minus behind it subtracts. -/
def completesOperand : Token → Bool
  | .number _ | .constant | .operator .factorial | .closeParen => true
  | .operator _ | .openParen => false

/-- The number that a minus makes of an operand behind it. -/
def negated? : Token → Option Token
  | .number value => some (.number (-value))
  | .constant => some (.number (-circleConstant))
  | .operator _ | .openParen | .closeParen => none

def text : Token → String
  | .number value => Numeral.text value
  | .constant => "p"
  | .operator operation => String.singleton operation.symbol
  | .openParen => "("
  | .closeParen => ")"

def listText (tokens : List Token) : String := " ".intercalate (tokens.map text)

end Token
end InfixCalculator

import InfixCalculator.Binary64
import InfixCalculator.Operator

namespace InfixCalculator

/-! What the operators compute, apart from the factorial.

Sums, differences, products and quotients are those of double-precision arithmetic. Powers and
elementary functions come from a library of such functions, which is an argument of every
calculation. An argument outside a function's domain gives NaN or infinity. -/

structure MathLibrary where
  function : ElementaryFunction → Float → Float
  power : Float → Float → Float

namespace MathLibrary

/-- The library of the machine. -/
def native : MathLibrary where
  function
    | .sin => Float.sin
    | .sinh => Float.sinh
    | .cos => Float.cos
    | .cosh => Float.cosh
    | .tan => Float.tan
    | .tanh => Float.tanh
    | .ln => Float.log
    | .log10 => Float.log10
  power := Float.pow

/-- The root as the power by the reciprocal of the degree. Of a negative number it is taken without
the sign where the degree is odd. -/
def root (library : MathLibrary) (radicand degree : Float) : Float :=
  if radicand < 0 ∧ Binary64.isOdd degree then -(library.power (-radicand) (1 / degree))
  else library.power radicand (1 / degree)

def binary (library : MathLibrary) : BinaryOperator → Float → Float → Float
  | .add, left, right => left + right
  | .subtract, left, right => left - right
  | .multiply, left, right => left * right
  | .divide, left, right => left / right
  | .power, left, right => library.power left right
  | .root, left, right => library.root left right

end MathLibrary
end InfixCalculator

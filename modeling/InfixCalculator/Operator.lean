namespace InfixCalculator

/-! The operators of the notation. Each is spelled by one letter or sign. -/

/-- Functions of one argument, written before it. Angles are in radians. -/
inductive ElementaryFunction where
  | sin | sinh | cos | cosh | tan | tanh | ln | log10
deriving DecidableEq, Repr

/-- Operators between two operands. A minus that gives a number its sign is none of them. -/
inductive BinaryOperator where
  | add | subtract | multiply | divide | power
  /-- `a r b` is the `b`-th root of `a`. -/
  | root
deriving DecidableEq, Repr

inductive Operator where
  | function (named : ElementaryFunction)
  | binary (sign : BinaryOperator)
  | factorial
deriving DecidableEq, Repr

/-- Where an operator stands: before its operand, after it, or between its two operands. -/
inductive Placement where
  | before | after | between
deriving DecidableEq, Repr

def ElementaryFunction.symbol : ElementaryFunction → Char
  | .sin => 'S'
  | .sinh => 's'
  | .cos => 'C'
  | .cosh => 'c'
  | .tan => 'T'
  | .tanh => 't'
  | .ln => 'l'
  | .log10 => 'L'

def BinaryOperator.symbol : BinaryOperator → Char
  | .add => '+'
  | .subtract => '-'
  | .multiply => '*'
  | .divide => '/'
  | .power => '^'
  | .root => 'r'

namespace Operator

def symbol : Operator → Char
  | .function named => named.symbol
  | .binary sign => sign.symbol
  | .factorial => '!'

def ofSymbol? : Char → Option Operator
  | 'S' => some (.function .sin)
  | 's' => some (.function .sinh)
  | 'C' => some (.function .cos)
  | 'c' => some (.function .cosh)
  | 'T' => some (.function .tan)
  | 't' => some (.function .tanh)
  | 'l' => some (.function .ln)
  | 'L' => some (.function .log10)
  | '+' => some (.binary .add)
  | '-' => some (.binary .subtract)
  | '*' => some (.binary .multiply)
  | '/' => some (.binary .divide)
  | '^' => some (.binary .power)
  | 'r' => some (.binary .root)
  | '!' => some .factorial
  | _ => none

def placement : Operator → Placement
  | .function _ => .before
  | .binary _ => .between
  | .factorial => .after

def arity (operator : Operator) : Nat :=
  match operator.placement with
  | .between => 2
  | .before | .after => 1

@[simp] theorem ofSymbol?_symbol (operator : Operator) :
    ofSymbol? operator.symbol = some operator := by
  cases operator with
  | function named => cases named <;> rfl
  | binary sign => cases sign <;> rfl
  | factorial => rfl

theorem symbol_injective {first second : Operator} (same : first.symbol = second.symbol) :
    first = second := by
  have known := ofSymbol?_symbol first
  rw [same, ofSymbol?_symbol] at known
  exact (Option.some.inj known).symm

end Operator
end InfixCalculator

import InfixCalculator.Binary64

namespace InfixCalculator

/-! Unsigned decimal fractions and their positional spelling.

`ofDigits` reads the spelling `123`, `1.5`, `1.` or `.5`, and `digits` writes `123` or `1.50` with
exactly the places that the fraction has. -/

/-- The number `coefficient / 10 ^ places`. -/
structure Decimal where
  coefficient : Nat
  places : Nat
deriving DecidableEq, Repr

namespace Decimal

def isDigit (c : Char) : Bool := decide ('0' ≤ c) && decide (c ≤ '9')

/-- Reads digits around at most one point. -/
def ofDigits (spelling : List Char) : Decimal :=
  let whole := spelling.takeWhile (· != '.')
  let fraction := spelling.drop (whole.length + 1)
  ⟨Nat.ofDigitChars 10 (whole ++ fraction) 0, fraction.length⟩

/-- Positional digits, with one digit at least before the point, and no point before no places. -/
def digits (number : Decimal) : List Char :=
  let whole := Nat.toDigits 10 (number.coefficient / Nat.pow 10 number.places)
  if number.places = 0 then whole
  else
    let fraction := Nat.toDigits 10 (number.coefficient % Nat.pow 10 number.places)
    whole ++ '.' :: (List.replicate (number.places - fraction.length) '0' ++ fraction)

/-- The same number without zeros at the end of its fraction. -/
def withoutTrailingZeros : Nat → Nat → Decimal
  | coefficient, 0 => ⟨coefficient, 0⟩
  | coefficient, places + 1 =>
      if coefficient % 10 = 0 then withoutTrailingZeros (coefficient / 10) places
      else ⟨coefficient, places + 1⟩

def toDouble (number : Decimal) : Float :=
  Binary64.nearest number.coefficient (Nat.pow 10 number.places)

end Decimal
end InfixCalculator

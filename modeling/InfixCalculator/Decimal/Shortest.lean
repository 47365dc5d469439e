import InfixCalculator.Decimal

namespace InfixCalculator.Decimal

/-! The shortest decimal fraction that reads back as a given double.

A finite double is a decimal fraction with 1074 places. For one digit, two digits and so on, the two
fractions with that many digits that stand next to its exact value are tried; if any fraction with so
many digits reads back, one of these two does. Seventeen digits are always enough. -/

/-- The exact size of a finite double. -/
def ofDouble (x : Float) : Decimal := ⟨Binary64.units x * Nat.pow 5 1074, 1074⟩

/-- Whether a fraction is read as a double of the same size as `x`. -/
def readsBackAs (x : Float) (number : Decimal) : Bool :=
  Binary64.nearestMagnitude number.coefficient (Nat.pow 10 number.places) == Binary64.magnitude x

/-- The multiples of `step` next to a coefficient, the nearer one first, and the larger one first
where both are as near. -/
def neighbours (coefficient step : Nat) : List Nat :=
  let below := coefficient / step * step
  if 2 * (coefficient - below) < step then [below, below + step] else [below + step, below]

/-- The fraction with the fewest digits that reads back as `x`, and the nearest of those to the
exact size of `x`. -/
def shortest (x : Float) : Decimal :=
  let exact := ofDouble x
  let size := (Nat.toDigits 10 exact.coefficient).length
  let found := (List.range 17).findSome? fun extra =>
    (neighbours exact.coefficient (Nat.pow 10 (size - (extra + 1)))).find? fun coefficient =>
      readsBackAs x ⟨coefficient, exact.places⟩
  withoutTrailingZeros (found.getD exact.coefficient) exact.places

end InfixCalculator.Decimal

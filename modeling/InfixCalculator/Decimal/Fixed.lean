import InfixCalculator.Decimal

namespace InfixCalculator.Decimal

/-! A double with a given number of places. -/

/-- The fraction with `places` places nearest to the exact size of a finite double; halfway between
two of them it is the one with an even last digit. -/
def fixed (places : Nat) (x : Float) : Decimal :=
  ⟨roundHalfEven (Binary64.units x * Nat.pow 10 places) Binary64.unitsPerOne, places⟩

end InfixCalculator.Decimal
